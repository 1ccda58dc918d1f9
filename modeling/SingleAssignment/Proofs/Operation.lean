import SingleAssignment.Proofs.Calm
import SingleAssignment.Proofs.Replay

/-!
# Operations are changes

What a builder does to place a value, to assign and read a variable and to merge it at a join is a
sequence of changes (`Changes`). A version 0 is made only for a variable that no version reaches
(`Laid.not_alive`), and what is computed at the end of a block names issued instructions
(`Computed`).
-/

namespace SingleAssignment

open List

namespace Builder

open Code

variable {F : BlockId} {W : Want → Prop} {s t : State}

/-! ## Records -/

theorem State.versions_modifyVersion_self {v : VersionId} {ver : Version}
    (h : s.versions[v]? = some ver) (f : Version → Version) : (s.modifyVersion v f).versions[v]? =
    some (f ver) := by
  rw [State.modifyVersion, Array.getElem?_modify, if_pos rfl, h]
  rfl

/-! ## Operations -/

namespace Changes

variable {b : BlockId} {d : State.Draft} {pos : Nat} {tag : MemoryTag} {op : Opcode} {x y : Value}

open State

/-- Nothing but books and lists that hold no code is different. -/
theorem of_arenas (hinsts : t.insts = s.insts) (hversions : t.versions = s.versions)
    (hblocks : t.blocks = s.blocks) (hwarned : t.diagnostics = s.diagnostics)
    (hcontexts : t.contexts = s.contexts) : Changes F W s t :=
  .single (.books hinsts hversions (fun b => by rw [block?, block?, hblocks]) (by rw [hblocks])
    hwarned hcontexts)

theorem report (e : Event) : Changes F W s (s.report e) :=
  of_arenas rfl rfl rfl rfl rfl

/-- A block keeps its books. -/
theorem modifyBlock {f : Block → Block} (hf : ∀ blk, (f blk).bare = blk.bare) :
    Changes F W s (s.modifyBlock b f) := by
  refine .single (.books ?_ (versions_modifyBlock s b f) (map_block?_modifyBlock Block.bare hf)
    (size_modifyBlock s b f) ?_ ?_)
  all_goals
    unfold State.modifyBlock
    split <;> rfl

theorem record (e : Entry) : Changes F W s (s.record b e) :=
  modifyBlock fun _ => rfl

theorem const (h : (s.block? entryBlock).isSome) (n : Int64) : Changes F W s (s.const n).2 := by
  rcases Calm.const_cases s n with he | he
  · rw [he]
  · rw [he]
    refine .trans (.single (.place h (by intro he; cases he) rfl (.inr ⟨rfl, rfl, rfl⟩) ?_))
      (record _)
    exact fun ht x hx => ht.entry x (mem_of_mem_take hx)

theorem placeNumbered (hs : Timelines s) (hb : (s.block? b).isSome) (hop : d.op.isNumbered = true)
    (hF : F ≤ b) (hput : s.Tidy → ∀ x ∈ (s.timelineOf b).take pos, s.isEnd x = false) :
    Changes F W s (s.placeNumbered b d tag pos).2 := by
  obtain ⟨blk, hblk⟩ := Option.isSome_iff_exists.mp hb
  have hputs : Puts s b d pos (s.place b d pos) := hs.puts_place hblk (ne_empty_of_isNumbered hop)
  obtain ⟨i, hi, -, hib, -, hinst⟩ := hputs.inst
  have hplaced : Changes F W s ((s.place b d pos).2.record b
      { op := d.op, id := (s.place b d pos).1, x := d.x, y := d.y, tag := tag }) :=
    .trans (.single (.place hb (ne_empty_of_isNumbered hop) (Opcode.hasEffect_of_isNumbered hop)
      (.inl hF) hput)) (record _)
  unfold State.placeNumbered
  dsimp only
  split
  · rename_i hload
    refine hplaced.tail (.inst (fun _ => rfl) (fun _ => rfl) (fun _ => rfl) ?_ ?_ ?_
      fun i _ => .same F i)
    all_goals
      intro j hj
      rw [show (State.record _ b _).inst? _ = _ from inst?_modifyBlock _ b _ _, hinst,
        if_pos rfl] at hj
      cases hj
    · intro he
      rw [hi] at he
      exact absurd he (ne_empty_of_isNumbered hop)
    · intro he
      rw [hi, Opcode.hasEffect_of_isNumbered hop] at he
    · exact .inl (hib ▸ hF)
  · exact hplaced

theorem number (hs : Timelines s) (hb : (s.block? b).isSome) (hop : op.isNumbered = true)
    (hF : F ≤ b) (hput : s.Tidy → ∀ x ∈ (s.timelineOf b).take pos, s.isEnd x = false) :
    Changes F W s (s.number b op x y tag pos).2 := by
  unfold State.number
  split
  · exact .refl
  · exact placeNumbered (d := ⟨op, x.operand, y.operand, x.src, y.src⟩) hs hb hop hF hput

theorem numberAtEnd (hs : Timelines s) (hb : (s.block? b).isSome) (hop : op.isNumbered = true)
    (hF : F ≤ b) (hopen : s.Open b) : Changes F W s (s.numberAtEnd b op x y tag).2 :=
  number hs hb hop hF fun _ x hx => hopen x (mem_of_mem_take hx)

theorem emitPhi (hb : (s.block? b).isSome) (hF : F ≤ b) : Changes F W s (s.emitPhi b x y).2 :=
  .trans (.single (.phi hb rfl hF)) (record _)

/-- What a version of the changed blocks was computed from records it. -/
theorem note {ver : Version} (hF : F ≤ ver.block) : Changes F W s (s.note ver) := by
  unfold State.note
  generalize ver.history ++ [ver.inst] = ids
  induction ids generalizing s with
  | nil => exact .refl
  | cons id ids ih =>
    refine .trans (.single (.inst (fun i => congrArg (·.id) (addDep_eq i _))
      (fun i => congrArg (·.op) (addDep_eq i _)) (fun i => congrArg (·.block) (addDep_eq i _))
      (fun i _ _ => by rw [addDep_eq]; rfl)
      (fun i _ _ => congrArg (·.active) (addDep_eq i _)) (fun i _ => .inr (addDep_eq i _))
      fun i hi => ⟨fun ref href => mem_deps_addDep.mpr (.inl href), fun ref href => ?_⟩)) ih
    exact (mem_deps_addDep.mp href).imp_right fun he : ref = ver.ref => .inl (he ▸ hF)

theorem touch (name : String) : Changes F W s (s.touch name) :=
  .single .touched

theorem versions_note (s : State) (ver : Version) : (s.note ver).versions = s.versions :=
  note_congr (·.versions) (fun _ _ _ => versions_modifyInst ..) s ver

theorem issuedValue_note {ver : Version} (h : s.IssuedValue x) : (s.note ver).IssuedValue x := by
  have hsize : (s.note ver).insts.size = s.insts.size :=
    note_congr (·.insts.size) (fun s id ref => by
    unfold modifyInst
    split
    · exact Array.size_modify
    · rfl) s ver
  exact ⟨Int.le_trans h.id (Int.le_of_eq (congrArg _ hsize.symm)), fun id hid =>
    Int.le_trans (h.src id hid) (Int.le_of_eq (congrArg _ hsize.symm))⟩

/-- A version of the changed blocks comes to stand for another instruction, which records it. -/
theorem repoint {v : VersionId} {ver : Version} {f : Version → Version}
    (hver : s.versions[v]? = some ver) (href : ∀ ver, (f ver).ref = ver.ref)
    (hissued : s.IssuedValue ⟨(f ver).inst, (f ver).src⟩) (hF : F ≤ ver.block)
    (hstart : startBlock < ver.block) : Changes F W s ((s.modifyVersion v f).depend v) := by
  rw [depend_eq (versions_modifyVersion_self hver f), note_modifyVersion]
  have hblock : (f ver).block = ver.block := congrArg (·.block) (href ver)
  refine (note (show F ≤ (f ver).block from hblock ▸ hF)).tail
    (.version href (fun _ ver' hver' => ?_) fun ver' hver' => ?_)
  all_goals
    rw [versions_note] at hver'
    cases hver.symm.trans hver'
  · exact issuedValue_note hissued
  · exact ⟨hF, .inl ⟨hstart, recorded_note s (f ver)⟩⟩

/-- What is noted of a version that still stands for the same instruction changes. -/
theorem revise {v : VersionId} {ver : Version} {f : Version → Version}
    (hver : s.versions[v]? = some ver) (href : ∀ ver, (f ver).ref = ver.ref)
    (hissued : s.AllIssued → s.IssuedValue ⟨(f ver).inst, (f ver).src⟩) (hF : F ≤ ver.block)
    (hinst : (f ver).inst = ver.inst) : Changes F W s (s.modifyVersion v f) := by
  refine .single (.version href (fun ha ver' hver' => ?_) fun ver' hver' => ?_)
  all_goals cases hver.symm.trans hver'
  · exact hissued ha
  · exact ⟨hF, .inr hinst⟩

/-- A new version is recorded. -/
theorem newVersion {ver : Version} (hb : (s.block? ver.block).isSome) (hF : F ≤ ver.block)
    (hnumber : ver.number ≠ 0) (hwant : W (.mark ver.block ver.var))
    (hissued : s.IssuedValue ⟨ver.inst, ver.src⟩) (hput : ∀ x ∈ (s.timelineOf ver.block).take pos,
      s.isEnd x = false) :
    Changes F W s ((s.addVersion ver pos).2.depend s.versions.size) := by
  rw [depend_eq ((versions_addVersion ..).trans (if_pos rfl)), note_addVersion]
  have hblock := note_congr (·.block? ver.block) (fun _ _ _ => block?_modifyInst ..) s ver
  have htime := note_congr (·.timelineOf ver.block) (fun _ _ _ => timelineOf_modifyInst ..) s ver
  have hend : (s.note ver).isEnd = s.isEnd := isEnd_congr (act?_congr fun id => note_congr
    (fun s => (s.inst? id).map bearing) (fun s id' ref => by
      rw [inst?_modifyInst]
      split
      · rename_i he
        subst he
        rw [Option.map_map]
        exact congrArg (Option.map · _) (funext fun i => by rw [Function.comp, addDep_eq]; rfl)
      · rfl) s ver)
  refine (note hF).tail (.mark (hblock ▸ hb) hF hnumber hwant (fun _ => issuedValue_note hissued)
    (fun _ y hy => ?_) (recorded_note s ver))
  rw [hend]
  exact hput y (htime ▸ hy)

/-- Numbers of versions that are made for a block start from one. -/
theorem nextVersion_ne_zero (s : State) (b : BlockId) (name : String) :
    s.nextVersion b name ≠ 0 := by
  unfold State.nextVersion
  dsimp only
  split
  · decide
  · assumption

theorem addHead (hb : (s.block? b).isSome) (hF : F ≤ b) {name : String} (hmark : W (.mark b name))
    {inst : InstId} {src : Provenance} (hissued : s.IssuedValue ⟨inst, src⟩) :
    Changes F W s ((s.addHead b name inst src).2.depend (s.addHead b name inst src).1) :=
  newVersion hb hF (nextVersion_ne_zero s b name) hmark hissued
    fun _ hx => Calm.isEnd_of_mem_leadingRun hx

theorem assign (hb : (s.block? b).isSome) (hF : F ≤ b) (hopen : s.Open b) {name : String}
    (hmark : W (.mark b name)) {v : Value} (hv : s.IssuedValue v) :
    Changes F W s (s.assign b name v).2 := by
  unfold State.assign
  dsimp only
  split
  · rename_i c hc
    obtain ⟨-, hsame⟩ := Option.filter_eq_some_iff.mp hc
    cases hver : s.versions[c]? with
    | none => simp [hver] at hsame
    | some ver =>
      rw [hver, Option.any_some, Bool.and_eq_true, Bool.and_eq_true, beq_iff_eq] at hsame
      have hblock : F ≤ ver.block := hsame.2.1 ▸ hF
      have hnew : Changes F W s (s.modifyVersion c fun ver => { ver with src := v.src,
                                                                         history :=
                                                                         v.src.history }) :=
        revise hver (fun _ => rfl) (fun ha => ⟨(ha c ver hver).id, hv.src⟩) hblock rfl
      rw [depend_eq (versions_modifyVersion_self hver _)]
      exact hnew.trans (note hblock)
  · exact (newVersion hb hF (nextVersion_ne_zero s b name) hmark hv
      fun x hx => hopen x (mem_of_mem_take hx)).trans (touch name)

/-- Behind the version 0, only the log is different. -/
theorem implicitZero_rest (name : String) (cause : Option ZeroCause) :
    Changes F W (s.addZero b name cause).2 (s.implicitZero b name cause).2 := by
  let ver : Version :=
    { var := name, number := 0, inst := (s.const 0).1.id, block := startBlock,
      src := (s.const 0).1.src }
  have hdepend : ((s.const 0).2.addVersion ver ((s.const 0).2.endOf startBlock)).2.depend
    (s.const 0).2.versions.size = ((s.notedZero name).addVersion ver
    ((s.notedZero name).endOf startBlock)).2 := by
    rw [depend_eq ((versions_addVersion ..).trans (if_pos rfl)), note_addVersion, endOf, endOf,
      State.notedZero, timelineOf_modifyInst]
    rfl
  unfold State.addZero
  dsimp only
  rw [← hdepend]
  cases cause with
  | none => exact .refl
  | some why => exact report _

theorem implicitZero (hentry : (s.block? entryBlock).isSome) (hstart : (s.block? startBlock).isSome)
    {name : String} {cause : Option ZeroCause} (hwant : W (.zero cause b name))
    (hroot : startBlock ∈ s.dominatorsOf b) (hnone : ¬ s.Held b name)
    (hconst : (s.const 0).2.HoldsConst (s.const 0).1.id 0) :
    Changes F W s (s.implicitZero b name cause).2 :=
  .trans (.single (.zero hentry hstart hwant hroot hnone hconst)) (implicitZero_rest name cause)

end Changes

namespace State

variable {b : BlockId} {name : String} {alive : Version → Bool}

theorem isSome_block (hb : (s.view.graph b).isSome) : (s.block? b).isSome := by
  simpa [State.view] using hb

theorem not_alive_of_lastOf {vs : List VersionId} {v : VersionId} {ver : Version}
    (hnone : s.lastOf alive vs = none) (hv : s.versions[v]? = some ver) (hmem : v ∈ vs) :
    alive ver = false := by
  have := find?_eq_none.mp hnone v (mem_reverse.mpr hmem)
  simpa [hv] using this

end State

namespace Laid

variable {floor b : BlockId} {name : String} {x y : Value}

open State

/-- Where no version of a variable is visible at the end of a block, none above it is alive. -/
theorem not_alive {alive : Version → Bool} (h : Laid floor s)
    (hnone : s.visibleWith alive b name (s.endOf b) = none) {v : VersionId} {ver : Version}
    (hv : s.versions[v]? = some ver) (hvar : ver.var = name) (hdom : ver.block ∈ s.dominatorsOf b) :
    alive ver = false := by
  have hview : s.view.versions v = some { ver with history := [] } := by simp [State.view, hv]
  have hmem : .mark v ∈ s.timelineOf ver.block :=
    (mem_filter.mp (h.layout.listedMark hview).1).1
  have hdoms : s.dominatorsOf b = b :: s.view.above b := by
    have hvalid : (s.view.graph b).isSome := by
      cases hb : s.block? b with
      | none => simp [dominatorsOf, hb] at hdom
      | some blk => simp [State.view, hb]
    rw [← h.layout.graph.doms_eq hvalid]
    simp only [dominatorsOf, View.doms, State.view, Option.map_map]
    rfl
  rw [visibleWith_endOf hdoms] at hnone
  rw [hdoms] at hdom
  exact not_alive_of_lastOf (findSome?_eq_none_iff.mp hnone _ hdom) hv
    (h.timelines.tabled.mem_versionsOf.mpr ⟨hmem, ver, hv, hvar⟩)

theorem not_held (h : Laid floor s) (hnone : s.visible? b name = none) : ¬ s.Held b name := by
  rintro ⟨v, ver, hv, hvar, hdom, hlive⟩
  rw [h.not_alive hnone hv hvar hdom] at hlive
  cases hlive

theorem holdsConst_const (h : Laid floor s) (n : Int64) : (s.const n).2.HoldsConst
    (s.const n).1.id n := by
  unfold State.const
  dsimp only
  split
  · rename_i e he
    have hcond := find?_some he
    simp only [Bool.and_eq_true, beq_iff_eq] at hcond
    obtain ⟨i, hi, hblock, hop, hxy, -⟩ := h.layout.entries (mem_of_find?_eq_some he)
    obtain ⟨i₀, hi₀, -, rfl⟩ := State.inst?_of_view hi
    have hop : i₀.op = .const := hop.trans hcond.1.1
    have hx : (face i₀).x = .literal n := hcond.1.2 ▸ (hxy (by rw [hcond.1.1]; decide)).2.1
    have htarget : i₀.isTarget .x = false := by
      unfold Instruction.isTarget
      rw [hop]
      rfl
    refine ⟨i₀, hi₀, hop, ?_, hblock, ?_⟩
    · simpa [face, htarget] using hx
    · simpa [isLive, hi₀] using hcond.2
  · obtain ⟨blk, hblk⟩ := State.isSome_view_graph.mp h.valid_entry
    have hputs : Puts s entryBlock _ _ (s.place entryBlock { op := .const, x := .literal n }
      (s.endOf entryBlock)) :=
      h.timelines.puts_place hblk (by intro he; cases he)
    obtain ⟨i, hop, hx, hblock, hactive, hinst⟩ := hputs.inst
    exact ⟨i, (inst?_modifyBlock _ entryBlock _ _).trans ((hinst _).trans (if_pos rfl)), hop, hx,
      hblock, hactive⟩

theorem changes_readAtEnd (h : Laid floor s) (hroot : s.Rooted b) {cause : Option ZeroCause}
    (hwant : b ≠ entryBlock → W (.zero cause b name)) :
    Changes F W s (s.readAtEnd b name cause).2 := by
  unfold State.readAtEnd
  split
  · exact .refl
  · rename_i hb
    split
    · exact .refl
    · rename_i hnone
      exact .implicitZero (isSome_block h.valid_entry) (isSome_block h.valid_start) (hwant hb)
        (hroot hb) (h.not_held hnone) (h.holdsConst_const 0)

theorem issuedValue_readAtEnd (h : Laid floor s) (ha : s.AllIssued) (hroot : s.Rooted b)
    (name : String) (cause : Option ZeroCause) : (s.readAtEnd b name cause).2.IssuedValue
    (s.readAtEnd b name cause).1 := by
  have hread : Changes 0 (fun _ => True) s (s.readAtEnd b name cause).2 :=
    h.changes_readAtEnd hroot fun _ => trivial
  have hall := Changes.allIssued hread h.timelines ha
  unfold State.readAtEnd at hall ⊢
  split
  · exact issuedValue_empty s
  · rename_i hb
    rw [if_neg hb] at hall
    split
    · exact ha.readVersion b name _
    · rename_i hnone
      rw [hnone] at hall
      exact hall.readVersion b name _

/-- The phi of a version is a phi of its block. -/
theorem phi_of_version (h : Laid floor s) {v : VersionId} {ver : Version} {id : InstId}
    (hv : s.versions[v]? = some ver) (hphi : ver.phi = some id) {i : Instruction}
    (hi : s.inst? id = some i) : i.op = .phi ∧ i.block = ver.block := by
  have hview : s.view.versions v = some { ver with history := [] } := by simp [State.view, hv]
  obtain ⟨i', hi', hop, hblock⟩ := h.layout.phis hview hphi
  obtain ⟨i₀, hi₀, -, rfl⟩ := State.inst?_of_view hi'
  cases hi.symm.trans hi₀
  exact ⟨hop, hblock⟩

theorem changes_settleHead (h : Laid floor s) (hF : F ≤ b) (hstart : startBlock < b)
    {head : VersionId} {ver : Version} (hv : s.versions[head]? = some ver) (hb : ver.block = b)
    (hx : s.IssuedValue x) : Changes F W s (s.settleHead b name head x).2 := by
  have hrest : ∀ t, Changes F W s t → t.versions = s.versions → ∀ c : Bool,
    (c = false → x.id = ver.inst) → Changes F W s
    (if c then (t.modifyVersion head fun v => { v with inst := x.id, src := x.src }).depend head
        else t.modifyVersion head fun v => { v with inst := x.id, src := x.src }) := by
    intro t ht hvers c hc
    have hv' : t.versions[head]? = some ver := hvers ▸ hv
    have hx' := (Changes.persists ht h.timelines).issuedValue hx
    split
    · exact ht.trans (Changes.repoint hv' (fun _ => rfl) hx' (hb ▸ hF) (hb ▸ hstart))
    · rename_i hno
      exact ht.trans (Changes.revise hv' (fun _ => rfl) (fun _ => hx') (hb ▸ hF)
        (hc (Bool.not_eq_true _ ▸ hno)))
  have hmoved : ∀ {c : Bool}, (!(s.versions[head]?).any (·.inst == x.id) || c) = false →
    x.id = ver.inst := by
    intro c hc
    rw [hv, Bool.or_eq_false_iff, Option.any_some, Bool.not_eq_false', beq_iff_eq] at hc
    exact hc.1.symm
  unfold State.settleHead
  dsimp only
  cases ho : ((s.versions[head]?).bind (·.phi)).filter s.isLive with
  | none => exact hrest s .refl rfl _ hmoved
  | some phi =>
    have hphi : ver.phi = some phi := by
      obtain ⟨ho, -⟩ := Option.filter_eq_some_iff.mp ho
      rw [hv] at ho
      exact ho
    have hr : Changes F W s (s.modifyInst phi fun i => { i with active := false }) := by
      refine .single (.inst (fun _ => rfl) (fun _ => rfl) (fun _ => rfl) (fun _ _ _ => rfl) ?_ ?_
        fun i _ => .same F i)
      · intro i hi he
        rw [(h.phi_of_version hv hphi hi).1] at he
        cases he
      · exact fun i hi => .inl ((h.phi_of_version hv hphi hi).2 ▸ hb ▸ hF)
    exact hrest _ (hr.trans (Changes.report _)) (versions_modifyInst ..) _ hmoved

/-- The phi of a version was issued. -/
theorem issued_phi (h : Laid floor s) {v : VersionId} {ver : Version} {id : InstId}
    (hv : s.versions[v]? = some ver) (hphi : ver.phi = some id) : s.Issued id := by
  have hview : s.view.versions v = some { ver with history := [] } := by simp [State.view, hv]
  obtain ⟨i', hi', -⟩ := h.layout.phis hview hphi
  obtain ⟨i₀, hi₀, -⟩ := State.inst?_of_view hi'
  exact issued_of_inst? hi₀

/-- The value of a phi names the phi only. -/
theorem issuedValue_phi {id : InstId} (h : s.Issued id) :
    s.IssuedValue ⟨id, .result .phi id .absent .absent {}⟩ :=
  IssuedValue.result (issuedValue_empty s) (issuedValue_empty s) h

theorem changes_refillPhi (h : Laid floor s) (hF : F ≤ b) (hstart : startBlock < b)
    {head : VersionId} {ver : Version} {phi : InstId} (hv : s.versions[head]? = some ver)
    (hb : ver.block = b) (hphi : ver.phi = some phi) :
    Changes F W s (s.refillPhi b name head phi x y).2 := by
  have hi : Changes F W s (s.modifyInst phi fun i =>
      { i with x := x.operand, y := y.operand, srcX := x.src, srcY := y.src, active := true }) := by
    refine .single (.inst (fun _ => rfl) (fun _ => rfl) (fun _ => rfl) ?_ ?_ ?_
      fun i _ => .same F i)
    · intro i hi he
      rw [(h.phi_of_version hv hphi hi).1] at he
      cases he
    · intro i hi he
      rw [(h.phi_of_version hv hphi hi).1] at he
      cases he
    · exact fun i hi => .inl ((h.phi_of_version hv hphi hi).2 ▸ hb ▸ hF)
  have hissued := issuedValue_phi ((Changes.persists hi h.timelines).issued (h.issued_phi hv hphi))
  have hv₁ : ∀ f, (s.modifyInst phi f).versions[head]? = some ver :=
    fun f => by rw [versions_modifyInst, hv]
  unfold State.refillPhi
  dsimp only
  split
  · refine (hi.trans ?_).trans (Changes.report _)
    exact Changes.repoint (hv₁ _) (fun _ => rfl) hissued (hb ▸ hF) (hb ▸ hstart)
  · rename_i hsame
    refine hi.trans (Changes.revise (hv₁ _) (fun _ => rfl) (fun _ => hissued) (hb ▸ hF) ?_)
    simp only [hv, Option.any_some, Bool.or_eq_true, not_or, Bool.not_eq_true', Bool.not_eq_false,
      beq_iff_eq] at hsame
    exact hsame.2.symm

theorem changes_newPhi (h : Laid floor s) (hb : (s.view.graph b).isSome) (hF : F ≤ b)
    (hstart : startBlock < b) (hmark : W (.mark b name)) {head : Option VersionId}
    (hv : ∀ v ∈ head, ∃ ver, s.view.versions v = some ver ∧ ver.isHead = true ∧ ver.block = b)
    (hx : tagsOf x.src = []) (hy : tagsOf y.src = []) :
    Changes F W s (s.newPhi b name head x y).2 := by
  obtain ⟨hphi, ⟨i, hi, -⟩, hsrc⟩ := h.emitPhi hb hx hy
  obtain ⟨i₀, hi₀, -⟩ := State.inst?_of_view hi
  have hrest : ∀ t v, Changes F W (s.emitPhi b x y).2 t → (∃ ver, t.view.versions v = some ver ∧
    ver.isHead = true ∧ ver.block = b) → Changes F W (s.emitPhi b x y).2
    (((t.modifyVersion v fun v =>
        { v with inst := (s.emitPhi b x y).1.id, src := (s.emitPhi b x y).1.src,
                 phi := some (s.emitPhi b x y).1.id }).depend v).report
        (.phiPlaced b name (s.emitPhi b x y).1.id x.id y.id)) := by
    rintro t v ht ⟨ver, hver, -, hblock⟩
    obtain ⟨ver₀, hver₀, rfl⟩ := version_of_view hver
    have hblock : ver₀.block = b := hblock
    have hissued := issuedValue_phi ((Changes.persists ht hphi.laid.timelines).issued
      (issued_of_inst? hi₀))
    rw [← hsrc] at hissued
    refine (ht.trans ?_).trans (Changes.report _)
    exact Changes.repoint hver₀ (fun _ => rfl) hissued (hblock ▸ hF) (hblock ▸ hstart)
  have hemit : Changes F W s (s.emitPhi b x y).2 := .emitPhi (isSome_block hb) hF
  unfold State.newPhi
  dsimp only
  cases head with
  | some v =>
    obtain ⟨ver, hver, hhead, hblock⟩ := hv v rfl
    obtain ⟨ver', hver', -, hb', hh'⟩ := (hphi.grows 0).version hver
    exact hemit.trans (hrest _ v .refl ⟨ver', hver', hh'.trans hhead, hb'.trans hblock⟩)
  | none =>
    obtain ⟨-, hver⟩ := hphi.laid.addHead (hphi.isSome hb) name 0 .absent
    have hadd : Changes F W (s.emitPhi b x y).2 ((s.emitPhi b x y).2.addHead b name 0 .absent).2 :=
      .single (.mark (isSome_block (hphi.isSome hb)) hF (Changes.nextVersion_ne_zero _ b name) hmark
        (fun _ => issuedValue_empty _) (fun _ _ hx => Calm.isEnd_of_mem_leadingRun hx)
        fun _ hi => by cases hi)
    exact hemit.trans (hrest _ _ hadd hver)

theorem changes_merge (h : Laid floor s) (hb : (s.view.graph b).isSome) (hF : F ≤ b)
    (hstart : startBlock < b) (hmark : W (.mark b name)) {above : Option InstId}
    (hx : tagsOf x.src = []) (hy : tagsOf y.src = []) (hxi : s.IssuedValue x) :
    Changes F W s (s.merge b name x y above).2 := by
  unfold State.merge
  split
  · rename_i head hhead
    obtain ⟨ver, hver, hishead, hblock, -⟩ := h.head_of_head? hhead
    split
    · exact h.changes_settleHead hF hstart hver hblock hxi
    · split
      · rename_i phi hphi
        rw [hver] at hphi
        exact h.changes_refillPhi hF hstart hver hblock hphi
      · refine h.changes_newPhi hb hF hstart hmark (fun v hv => ?_) hx hy
        cases hv
        exact ⟨{ ver with history := [] }, by simp [State.view, hver], hishead, hblock⟩
  · split
    · exact h.changes_newPhi hb hF hstart hmark (fun v hv => by cases hv) hx hy
    · split
      · exact .refl
      · exact Changes.addHead (isSome_block hb) hF hmark hxi

/-- What merging a variable does behind the reads at both parents. -/
theorem changes_reconcile_merge (h : Laid floor s) (ha : s.AllIssued) (hb : (s.view.graph b).isSome)
    (hF : F ≤ b) (hstart : startBlock < b) (name : String) (hmark : W (.mark b name))
    (hroot : ∀ p ∈ [(s.joinParents b).1, (s.joinParents b).2], s.Rooted p) :
    Changes F W (((s.addJoinVar b name).readAtEnd (s.joinParents b).1 name
      (some .partialJoin)).2.readAtEnd (s.joinParents b).2 name (some .partialJoin)).2
      (s.reconcile b name) := by
  have hjoin := h.addJoinVar (b := b) name
  have haj : (s.addJoinVar b name).AllIssued := ha.mono (versions_modifyBlock ..) fun {_ i} hi =>
    ⟨i, (inst?_modifyBlock ..).trans hi⟩
  have hparents : (s.addJoinVar b name).joinParents b = s.joinParents b :=
    State.joinParents_congr hjoin.graph b
  unfold State.reconcile
  dsimp only
  rw [hparents]
  generalize s.joinParents b = ps at *
  have hroot₁ := (hroot ps.1 (mem_cons_self ..)).congr hjoin.graph
  have hxi := hjoin.laid.issuedValue_readAtEnd haj hroot₁ name (some .partialJoin)
  have hx := hjoin.laid.readAtEnd (b := ps.1) name (some .partialJoin)
  generalize (s.addJoinVar b name).readAtEnd ps.1 name (some .partialJoin) = rx at *
  obtain ⟨x, s₁⟩ := rx
  dsimp only at hx hxi ⊢
  have hy := hx.1.laid.readAtEnd (b := ps.2) name (some .partialJoin)
  have hroot₂ := (hroot ps.2 (by simp)).congr (hx.1.graph.trans hjoin.graph)
  have hyc : Changes 0 (fun _ => True) s₁ (s₁.readAtEnd ps.2 name (some .partialJoin)).2 :=
    hx.1.laid.changes_readAtEnd hroot₂ fun _ => trivial
  generalize s₁.readAtEnd ps.2 name (some .partialJoin) = ry at *
  obtain ⟨y, s₂⟩ := ry
  dsimp only at hy hyc ⊢
  exact hy.1.laid.changes_merge (((hjoin.trans hx.1).trans hy.1).isSome hb) hF hstart
    hmark hx.2 hy.2 ((Changes.persists hyc hx.1.laid.timelines).issuedValue hxi)

/-- What merging a variable does behind the read at the first parent. -/
theorem changes_reconcile_rest (h : Laid floor s) (ha : s.AllIssued) (hb : (s.view.graph b).isSome)
    (hF : F ≤ b) (hstart : startBlock < b) (name : String) (hmark : W (.mark b name))
    (hroot : ∀ p ∈ [(s.joinParents b).1, (s.joinParents b).2], s.Rooted p)
    (hwant : W (.zero (some .partialJoin) (s.joinParents b).2 name)) :
    Changes F W ((s.addJoinVar b name).readAtEnd (s.joinParents b).1 name (some .partialJoin)).2
      (s.reconcile b name) := by
  have hjoin := h.addJoinVar (b := b) name
  have hx := (hjoin.laid.readAtEnd (b := (s.joinParents b).1) name (some .partialJoin)).1
  have hroot₂ := (hroot (s.joinParents b).2 (by simp)).congr (hx.graph.trans hjoin.graph)
  exact (hx.laid.changes_readAtEnd hroot₂ fun _ => hwant).trans
    (h.changes_reconcile_merge ha hb hF hstart name hmark hroot)

theorem changes_reconcile (h : Laid floor s) (ha : s.AllIssued) (hb : (s.view.graph b).isSome)
    (hF : F ≤ b) (hstart : startBlock < b) (name : String) (hmerge : W (.join b name))
    (hmark : W (.mark b name)) (hroot : ∀ p ∈ [(s.joinParents b).1, (s.joinParents b).2],
      s.Rooted p)
    (hwant : ∀ p ∈ [(s.joinParents b).1, (s.joinParents b).2],
      W (.zero (some .partialJoin) p name)) :
    Changes F W s (s.reconcile b name) := by
  have hjoin := h.addJoinVar (b := b) name
  have hjoined : Changes F W s (s.addJoinVar b name) := .single (.joined hmerge)
  have hread : Changes F W (s.addJoinVar b name) _ := hjoin.laid.changes_readAtEnd
    ((hroot _ (mem_cons_self ..)).congr hjoin.graph) fun _ => hwant _ (mem_cons_self ..)
  exact (hjoined.trans hread).trans
    (h.changes_reconcile_rest ha hb hF hstart name hmark hroot (hwant _ (by simp)))

end Laid

/-! ## Values in a block -/

theorem src_numberAtEnd (s : State) (b : BlockId) (op : Opcode) (x y : Value) (tag : MemoryTag) :
    (s.numberAtEnd b op x y tag).1.src =
      .result op (s.numberAtEnd b op x y tag).1.id x.src y.src tag := by
  unfold State.numberAtEnd State.number
  cases s.find? b op x.operand y.operand tag (s.endOf b) <;> rfl

theorem Timelines.issued_placeNumbered {b : BlockId} {d : State.Draft} (hs : Timelines s)
    (hb : (s.block? b).isSome) (hop : d.op.isNumbered = true) (tag : MemoryTag) (pos : Nat) :
    (s.placeNumbered b d tag pos).2.Issued (s.placeNumbered b d tag pos).1 := by
  obtain ⟨blk, hb⟩ := Option.isSome_iff_exists.mp hb
  obtain ⟨-, hview, -⟩ := @Timelines.placeNumbered s b blk d pos hs hb (ne_empty_of_isNumbered hop)
    tag
  obtain ⟨i, hi, -⟩ := State.inst?_of_view ((congrFun (congrArg View.insts hview) _).trans
    (Function.update_self ..))
  rw [(numbered_fields hop).1] at hi
  exact State.issued_of_inst? hi

theorem Timelines.issuedValue_const (hs : Timelines s) (hentry : (s.block? entryBlock).isSome)
    (n : Int64) : (s.const n).2.IssuedValue (s.const n).1 := by
  unfold State.const
  dsimp only
  split
  · rename_i e he
    have hcond := find?_some he
    simp only [Bool.and_eq_true] at hcond
    have hid := State.issued_of_isLive hcond.2
    exact ⟨hid, fun id hmem => mem_singleton.mp hmem ▸ hid⟩
  · have hid := hs.issued_placeNumbered (d := { op := .const, x := .literal n }) hentry rfl {}
      (s.endOf entryBlock)
    exact ⟨hid, fun id hmem => mem_singleton.mp hmem ▸ hid⟩

/-- Code may be added at the end of a block. -/
structure Ongoing (s : State) (b : BlockId) : Prop where
  timelines : Timelines s
  entry : (s.block? entryBlock).isSome
  block : (s.block? b).isSome
  opened : s.Open b

/-- A value was computed at the end of a block by changes, and it names issued instructions if those
that it was computed from do. -/
structure Computed (F : BlockId) (W : Want → Prop) (s : State) (xs : List Value)
    (r : Value × State) : Prop where
  changes : Changes F W s r.2
  issued : (∀ x ∈ xs, s.IssuedValue x) → r.2.IssuedValue r.1

namespace Ongoing

variable {b : BlockId} {x y : Value} {op : Opcode} {tag : MemoryTag}

theorem changes (h : Ongoing s b) (hc : Changes F W s t) : Ongoing t b :=
  have hcalm := hc.calm h.timelines
  ⟨hcalm.timelines, hcalm.isSome_block h.entry, hcalm.isSome_block h.block, hcalm.opened h.opened⟩

theorem const (h : Ongoing s b) (n : Int64) : Computed F W s [] (s.const n) :=
  ⟨.const h.entry n, fun _ => h.timelines.issuedValue_const h.entry n⟩

theorem numberAtEnd (h : Ongoing s b) (hF : F ≤ b) (hop : op.isNumbered = true) :
    Computed F W s [x, y] (s.numberAtEnd b op x y tag) := by
  have hc : Changes F W s (s.numberAtEnd b op x y tag).2 :=
    .numberAtEnd h.timelines h.block hop hF h.opened
  refine ⟨hc, fun hxy => ?_⟩
  have hp := Changes.persists hc h.timelines
  have hid : (s.numberAtEnd b op x y tag).2.Issued (s.numberAtEnd b op x y tag).1.id := by
    rcases Laid.numberAtEnd_cases s b op x y tag with ⟨swapped, hf, hs⟩ | ⟨-, he⟩
    · obtain ⟨-, -, -, -, -, hlive, -⟩ := Laid.mem_of_find? hf
      rw [hs]
      exact State.issued_of_isLive hlive
    · have hplaced := h.timelines.issued_placeNumbered
        (d := ⟨op, x.operand, y.operand, x.src, y.src⟩) h.block hop tag (s.endOf b)
      rwa [← he] at hplaced
  rw [show (s.numberAtEnd b op x y tag).1 = ⟨(s.numberAtEnd b op x y tag).1.id,
    .result op (s.numberAtEnd b op x y tag).1.id x.src y.src tag⟩ by rw [← src_numberAtEnd]]
  exact .result (hp.issuedValue (hxy x (by simp))) (hp.issuedValue (hxy y (by simp))) hid

/-- The values that an offset is computed from. -/
def factors (terms : List (Value × Int64 × Value)) : List Value :=
  terms.flatMap fun t => [t.1, t.2.2]

theorem mem_factors {terms : List (Value × Int64 × Value)} {t : Value × Int64 × Value}
    (ht : t ∈ terms) : t.1 ∈ factors terms ∧ t.2.2 ∈ factors terms :=
  ⟨mem_flatMap.mpr ⟨t, ht, by simp⟩, mem_flatMap.mpr ⟨t, ht, by simp⟩⟩

/-- Values that are issued, given `P`, are computed with by changes. -/
def reckoning (W : Want → Prop) (hF : F ≤ b) (P : Prop) : Reckoning b where
  Holds s := Ongoing s b
  Leads := Changes F W
  Fit s v := P → s.IssuedValue v
  refl _ := .refl
  trans := .trans
  holds := changes
  fit_mono h hc hv hP := (Changes.persists hc h.timelines).issuedValue (hv hP)
  fit_empty s _ := State.issuedValue_empty s
  const h n := ⟨(h.const n).changes, fun _ => (h.const (F := F) (W := W) n).issued
    fun _ hv => by cases hv⟩
  number := @fun s x y op h hop _ _ hx hy => by
    have hnum : Computed F W s [x, y] (s.numberAtEnd b op x y {}) := h.numberAtEnd hF hop
    exact ⟨hnum.changes, fun hP => hnum.issued (by simpa using ⟨hx hP, hy hP⟩)⟩

theorem elementAddress (h : Ongoing s b) (hF : F ≤ b) (a : ArrayInfo) (indices : List Value) :
    Computed F W s (a.baseValue :: factors (indices.zip (a.strides.zip a.strideValues)))
      (s.elementAddress b a indices) := by
  let P := ∀ x ∈ a.baseValue :: factors (indices.zip (a.strides.zip a.strideValues)),
    s.IssuedValue x
  have hbase : P → s.IssuedValue a.baseValue := fun hxs => hxs _ (mem_cons_self ..)
  have hfactor : ∀ v ∈ factors (indices.zip (a.strides.zip a.strideValues)), P → s.IssuedValue v :=
    fun v hv hxs => hxs v (mem_cons_of_mem _ hv)
  obtain ⟨hc, hissued⟩ := (reckoning W hF P).elementAddress h hbase fun t ht =>
    ⟨hfactor _ (mem_factors ht).1, hfactor _ (mem_factors ht).2⟩
  exact ⟨hc, hissued⟩

theorem load (h : Ongoing s b) (hF : F ≤ b) (a : ArrayInfo) (indices : List Value) :
    Computed F W s (a.baseValue :: factors (indices.zip (a.strides.zip a.strideValues)))
      ((s.elementAddress b a indices).2.numberAtEnd b .load (s.elementAddress b a indices).1 {}
        tag) := by
  have haddr := h.elementAddress (W := W) hF a indices
  have hload : Computed F W _ [(s.elementAddress b a indices).1, {}]
      ((s.elementAddress b a indices).2.numberAtEnd b .load (s.elementAddress b a indices).1 {}
      tag) :=
    (h.changes haddr.changes).numberAtEnd hF rfl
  refine ⟨haddr.changes.trans hload.changes, fun hxs => hload.issued fun v hv => ?_⟩
  rcases mem_cons.mp hv with rfl | hv
  · exact haddr.issued hxs
  · rw [mem_singleton.mp hv]
    exact State.issuedValue_empty _

end Ongoing

end Builder

end SingleAssignment
