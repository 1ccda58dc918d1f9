import SingleAssignment.Proofs.Calls
import SingleAssignment.Proofs.Operation

/-!
# The arena of instructions

Instructions are added and never taken away, and a value stays what it was computed as. What holds
of every call, a repair included, is what `Outlives` says of each instruction. What only some calls
may change is said by
`Spares P Q`: instructions with an operation of `P` stay as they are, and none with an operation of
`Q` is added. Each operation but a repair spares all that it does not name (`Call.spares`).

Together they give the law of a step (`arena_step`): which call may change which part of which
instruction (`Call.Preserves`).
-/

namespace SingleAssignment.Builder

open Code List

/-- An instruction without the notes on the memory it touches and on the versions computed from
it. -/
def plain (i : Instruction) : Instruction :=
  { i with deps := [], memory := none }

/-- The instructions with an operation of `P` stay, those with one of `Q` are the same as before,
and what is known about the values of these is not forgotten. -/
structure Spares (P Q : Opcode → Bool) (s t : State) : Prop where
  kept : ∀ {id i}, s.inst? id = some i → P i.op = true → ∃ i', t.inst? id = some i' ∧
    plain i' = plain i
  back : ∀ {id i'}, t.inst? id = some i' → Q i'.op = true → ∃ i, s.inst? id = some i ∧
    plain i' = plain i
  entry : ∀ {b e}, e ∈ s.entriesOf b → Q e.op = true → e ∈ t.entriesOf b

/-- What can be spared: no instruction of `P` is empty, and `Q` has only operations that compute. -/
structure Sparable (P Q : Opcode → Bool) : Prop where
  empty : P .empty = false
  computes : ∀ op, Q op = true → op.isArithmetic = true

theorem of_plain {i i' : Instruction} (h : plain i' = plain i) :
    i'.op = i.op ∧ i'.x = i.x ∧ i'.y = i.y ∧ i'.block = i.block ∧ i'.active = i.active := by
  cases i
  cases i'
  cases h
  exact ⟨rfl, rfl, rfl, rfl, rfl⟩

namespace Spares

variable {P Q : Opcode → Bool} {s t u : State} {b : BlockId}

open State

theorem refl (s : State) : Spares P Q s s :=
  ⟨fun {_ i} hi _ => ⟨i, hi, rfl⟩, fun {_ i} hi _ => ⟨i, hi, rfl⟩, fun he _ => he⟩

theorem trans (h : Spares P Q s t) (h' : Spares P Q t u) : Spares P Q s u := by
  refine ⟨fun {id i} hi hP => ?_, fun {id i''} hi hQ => ?_, fun he hQ => h'.entry
    (h.entry he hQ) hQ⟩
  · obtain ⟨i', hi', hc⟩ := h.kept hi hP
    obtain ⟨i'', hi'', hc'⟩ := h'.kept hi' ((of_plain hc).1 ▸ hP)
    exact ⟨i'', hi'', hc'.trans hc⟩
  · obtain ⟨i', hi', hc'⟩ := h'.back hi hQ
    obtain ⟨i, hi, hc⟩ := h.back hi' ((of_plain hc').1 ▸ hQ)
    exact ⟨i, hi, hc'.trans hc⟩

theorem foldl {α : Type} {f : State → α → State} (hf : ∀ s a, Spares P Q s (f s a))
    (l : List α) (s : State) : Spares P Q s (l.foldl f s) := by
  induction l generalizing s with
  | nil => exact .refl s
  | cons a l ih => exact (hf s a).trans (ih _)

/-! ## Placing and numbering -/

theorem of_arenas (hinsts : t.insts = s.insts) (hblocks : t.blocks = s.blocks) :
    Spares P Q s t := by
  have hinst : t.inst? = s.inst? := by
    funext id
    simp only [inst?, hinsts]
  have hentries : t.entriesOf = s.entriesOf := by
    funext b
    simp only [entriesOf, block?, hblocks]
  exact ⟨fun {_ i} hi _ => ⟨i, hinst ▸ hi, rfl⟩, fun {_ i} hi _ => ⟨i, hinst ▸ hi, rfl⟩,
    fun he _ => hentries ▸ he⟩

theorem modifyInst {id : InstId} {f : Instruction → Instruction}
    (hf : ∀ i, s.inst? id = some i → plain (f i) = plain i ∨ P i.op = false ∧ Q (f i).op = false) :
    Spares P Q s (s.modifyInst id f) := by
  refine ⟨fun {id' i} hi hP => ?_, fun {id' i'} hi hQ => ?_,
    fun he _ => by rwa [entriesOf_modifyInst]⟩
  · rw [inst?_modifyInst]
    split
    · rename_i he
      subst he
      rcases hf i hi with hc | ⟨hno, -⟩
      · exact ⟨f i, by rw [hi, Option.map_some], hc⟩
      · rw [hno] at hP
        cases hP
    · exact ⟨i, hi, rfl⟩
  · rw [inst?_modifyInst] at hi
    split at hi
    · rename_i he
      obtain ⟨i, hold, rfl⟩ := Option.map_eq_some_iff.mp hi
      rcases hf i hold with hc | ⟨-, hno⟩
      · exact ⟨i, he ▸ hold, hc⟩
      · rw [hno] at hQ
        cases hQ
    · exact ⟨i', hi, rfl⟩

theorem modifyBlock {f : Block → Block} (hf : ∀ blk e, e ∈ blk.entries → Q e.op = true →
      e ∈ (f blk).entries) :
    Spares P Q s (s.modifyBlock b f) := by
  refine ⟨fun {_ i} hi _ => ⟨i, by rwa [inst?_modifyBlock], rfl⟩,
    fun {_ i} hi _ => ⟨i, by rwa [inst?_modifyBlock] at hi, rfl⟩, fun {b' e} he hQ => ?_⟩
  simp only [entriesOf, block?_modifyBlock] at he ⊢
  split
  · rename_i hb
    subst hb
    cases hb : s.block? b' with
    | none => simp [hb] at he
    | some blk =>
      rw [hb] at he
      exact hf blk e he hQ
  · exact he

theorem insertNew {d : Draft} (hd : Q d.op = false) (pos : Nat) :
    Spares P Q s (s.insertNew b d pos).2 := by
  have halloc : Spares P Q s (s.alloc b d).2 := by
    refine ⟨fun {id i} hi _ => ⟨i, (inst?_push s _ id).trans ?_, rfl⟩, fun {id i'} hi hQ => ?_,
      fun he _ => he⟩
    · rw [if_neg, hi]
      rintro rfl
      rw [inst?_eq_none_of_size_lt (Int.lt_succ _)] at hi
      cases hi
    · rw [State.alloc, inst?_push] at hi
      split at hi
      · cases hi
        rw [hd] at hQ
        cases hQ
      · exact ⟨i', hi, rfl⟩
  exact halloc.trans (modifyBlock fun _ _ he _ => he)

theorem record (b : BlockId) (e : Entry) : Spares P Q s (s.record b e) :=
  modifyBlock fun _ _ he _ => mem_cons_of_mem _ he

theorem modifyVersion (v : VersionId) (f : Version → Version) :
    Spares P Q s (s.modifyVersion v f) :=
  of_arenas rfl rfl

theorem addVersion (ver : Version) (pos : Nat) : Spares P Q s (s.addVersion ver pos).2 :=
  .trans (t := { s with versions := s.versions.push ver }) (of_arenas rfl rfl)
    (modifyBlock fun _ _ he _ => he)

theorem depend (v : VersionId) : Spares P Q s (s.depend v) := by
  unfold State.depend
  split
  · exact .refl s
  · refine foldl (fun s id => modifyInst fun i _ => .inl ?_) _ s
    unfold Instruction.addDep
    split <;> rfl

end Spares

namespace Sparable

open State (entriesOf block?_push block?_size entriesOf_forgetLoads)

open Spares (modifyInst modifyBlock modifyVersion addVersion insertNew record depend of_arenas)

variable {P Q : Opcode → Bool} {s t : State} {b : BlockId}

theorem eq_false (h : Sparable P Q) {op : Opcode} (hop : op.isArithmetic = false) :
    Q op = false := by
  cases hQ : Q op with
  | false => rfl
  | true =>
    rw [h.computes op hQ] at hop
    cases hop

theorem place (h : Sparable P Q) {d : State.Draft} (hd : Q d.op = false) (pos : Nat) :
    Spares P Q s (s.place b d pos).2 := by
  unfold State.place
  split
  · exact insertNew hd pos
  · split
    · exact insertNew hd pos
    · refine .trans (t := s.clear b) (modifyBlock fun _ _ he _ => he) ?_
      dsimp only
      rw [← State.clear]
      split
      · rename_i hempty
        refine (modifyInst fun i hi => .inr ⟨?_, hd⟩).trans (modifyBlock fun blk e he _ => ?_)
        · rw [hi, Option.any_some, beq_iff_eq] at hempty
          rw [hempty, h.empty]
        · split <;> exact he
      · exact insertNew hd pos

theorem placeNumbered (h : Sparable P Q) {d : State.Draft} (hd : Q d.op = false)
    (tag : MemoryTag) (pos : Nat) : Spares P Q s (s.placeNumbered b d tag pos).2 := by
  have hplace := (h.place hd pos (s := s) (b := b)).trans
    (record b { op := d.op, id := (s.place b d pos).1, x := d.x, y := d.y, tag := tag })
  unfold State.placeNumbered
  dsimp only
  split
  · exact hplace.trans (modifyInst fun _ _ => .inl rfl)
  · exact hplace

theorem number (h : Sparable P Q) {op : Opcode} (hop : Q op = false) (x y : Value)
    (tag : MemoryTag) (pos : Nat) : Spares P Q s (s.number b op x y tag pos).2 := by
  unfold State.number
  split
  · exact .refl s
  · exact h.placeNumbered hop tag pos

theorem emitEffect (h : Sparable P Q) {op : Opcode} (hop : Q op = false) (x y : Value) :
    Spares P Q s (s.emitEffect b op x y).2 :=
  h.place hop _

theorem const (h : Sparable P Q) (n : Int64) : Spares P Q s (s.const n).2 := by
  unfold State.const
  dsimp only
  split
  · exact .refl s
  · dsimp only
    exact .trans (h.place (h.eq_false rfl) _) (record _ _)

/-! ## Variables and joins -/

theorem assign (name : String) (v : Value) : Spares P Q s (s.assign b name v).2 := by
  unfold State.assign
  dsimp only
  split
  · exact (modifyVersion _ _).trans (depend _)
  · exact ((addVersion _ _).trans (depend _)).trans (of_arenas rfl rfl)

theorem readAtEnd (h : Sparable P Q) (name : String) (cause : Option ZeroCause) :
    Spares P Q s (s.readAtEnd b name cause).2 := by
  unfold State.readAtEnd
  split
  · exact .refl s
  · split
    · exact .refl s
    · unfold State.implicitZero
      dsimp only
      split
      · exact ((h.const 0).trans (addVersion _ _)).trans (depend _)
      · exact (((h.const 0).trans (addVersion _ _)).trans (depend _)).trans (of_arenas rfl rfl)

theorem modifyPhi (h : Sparable P Q) (hphi : P .phi = false) {id : InstId} (hid : IsPhiAt s id)
    {f : Instruction → Instruction} (hf : ∀ i, (f i).op = i.op) :
    Spares P Q s (s.modifyInst id f) := by
  refine modifyInst fun i hi => .inr ?_
  obtain ⟨i', hi', hop⟩ := hid
  cases hi.symm.trans hi'
  rw [hf, hop]
  exact ⟨hphi, h.eq_false rfl⟩

theorem emitPhi (h : Sparable P Q) (x y : Value) : Spares P Q s (s.emitPhi b x y).2 :=
  .trans (insertNew (h.eq_false rfl) _) (record _ _)

theorem merge (h : Sparable P Q) (hphi : P .phi = false) (hs : WellFormed s) (j : BlockId)
    (name : String) (x y : Value) (above : Option InstId) :
    Spares P Q s (s.merge j name x y above).2 := by
  have hphiAt : ∀ {head : VersionId} {phi}, (s.versions[head]?).bind (·.phi) = some phi →
    IsPhiAt s phi := by
    intro head phi hbind
    obtain ⟨a, ha, hid⟩ := Option.bind_eq_some_iff.mp hbind
    exact hs.versioned.phi ha hid
  have report : ∀ {t : State} (e : Event), Spares P Q t (t.report e) := fun _ => of_arenas rfl rfl
  have newPhi : ∀ head, Spares P Q s (s.newPhi j name head x y).2 := by
    intro head
    unfold State.newPhi
    cases head with
    | none =>
      exact ((((h.emitPhi x y).trans (addVersion _ _)).trans (modifyVersion _ _)).trans
        (depend _)).trans (report _)
    | some head =>
      exact (((h.emitPhi x y).trans (modifyVersion _ _)).trans (depend _)).trans (report _)
  unfold State.merge
  split
  · rename_i head _
    split
    · unfold State.settleHead
      dsimp only
      cases hold : ((s.versions[head]?).bind (·.phi)).filter s.isLive with
      | none =>
        dsimp only
        split
        · exact (modifyVersion _ _).trans (depend _)
        · exact modifyVersion _ _
      | some phi =>
        have hretire := ((h.modifyPhi hphi (hphiAt (Option.filter_eq_some_iff.mp hold).1)
          (f := fun i => { i with active := false }) fun _ => rfl).trans
          (report (.phiRetired j name phi x.id))).trans
          (modifyVersion head fun v => { v with inst := x.id, src := x.src })
        dsimp only
        split
        · exact hretire.trans (depend _)
        · exact hretire
    · split
      · rename_i phi hold
        have hrefill := (h.modifyPhi hphi (hphiAt hold) (f := fun i =>
          { i with x := x.operand, y := y.operand, srcX := x.src, srcY := y.src, active := true })
            fun _ => rfl).trans
          (modifyVersion head fun v => { v with inst := phi,
                                                src := .result .phi phi .absent .absent {} })
        unfold State.refillPhi
        dsimp only
        split
        · exact (hrefill.trans (depend _)).trans (report _)
        · exact hrefill
      · exact newPhi _
  · split
    · exact newPhi _
    · split
      · exact .refl s
      · exact (addVersion _ _).trans (depend _)

theorem addJoinVar (j : BlockId) (name : String) : Spares P Q s (s.addJoinVar j name) :=
  modifyBlock fun _ _ he _ => he

theorem reconcile (h : Sparable P Q) (hphi : P .phi = false) (hs : WellFormed s) (j : BlockId)
    (name : String) : Spares P Q s (s.reconcile j name) := by
  have hvar := hs.addJoinVar j name
  obtain ⟨hp, hq⟩ := hvar.wellFormed.isSome_joinParents j
  have hx := hvar.wellFormed.readAtEnd name hp (some .partialJoin)
  have hy := hx.wellFormed.readAtEnd name (fun hne => hx.isSome_block (hq hne)) (some .partialJoin)
  exact (((addJoinVar j name).trans (h.readAtEnd _ _)).trans (h.readAtEnd _ _)).trans
    (h.merge hphi hy.wellFormed ..)

theorem reconcileAll (h : Sparable P Q) (hphi : P .phi = false) (hs : WellFormed s) {j : BlockId}
    (hj : (s.block? j).isSome) (names : List String) : Spares P Q s (s.reconcileAll j names) := by
  unfold State.reconcileAll
  induction names generalizing s with
  | nil => exact .refl s
  | cons name names ih =>
    have hone := hs.reconcile hj name
    exact (h.reconcile hphi hs j name).trans (ih hone.wellFormed (hone.isSome_block hj))

/-! ## Branches and blocks -/

theorem aim (h : Sparable P Q) (hbranch : ∀ op, op.isBranch = true → P op = false) {id : InstId}
    (hid : IsBranchAt s id) (side : Side) (o : Operand) :
    Spares P Q s (s.modifyInst id (·.withSlot side o)) := by
  refine modifyInst fun i hi => .inr ?_
  obtain ⟨i', hi', hop⟩ := hid
  cases hi.symm.trans hi'
  have hkept : (i.withSlot side o).op = i.op := by cases side <;> rfl
  refine ⟨hbranch _ hop, hkept ▸ h.eq_false ?_⟩
  cases hi : i.op <;> rw [hi] at hop <;> first | rfl | cases hop

theorem resolveBranch (h : Sparable P Q) (hbranch : ∀ op, op.isBranch = true → P op = false)
    (hs : WellFormed s) {d : Deferral} (hb : (s.block? d.target).isSome)
    (hid : IsBranchAt s d.inst) : Spares P Q s (s.resolveBranch d) := by
  have hentry : Spares P Q s (s.entryPoint d.target).2 := by
    unfold State.entryPoint
    split
    · exact .refl s
    · exact .trans (h.place (h.eq_false rfl) _) (modifyBlock fun _ _ he _ => he)
  exact (hentry.trans (h.aim hbranch ((hs.entryPoint hb).isBranchAt hid) _ _)).trans
    (of_arenas rfl rfl)

theorem resolveBranches (h : Sparable P Q) (hbranch : ∀ op, op.isBranch = true → P op = false)
    (hs : WellFormed s) : Spares P Q s s.resolveBranches := by
  have hall : ∀ (ds : List Deferral) {s : State}, WellFormed s →
      (∀ d ∈ ds, (s.block? d.target).isSome ∧ IsBranchAt s d.inst) →
      Spares P Q s (ds.foldl State.resolveBranch s) := by
    intro ds
    induction ds with
    | nil => exact fun _ _ => .refl _
    | cons d ds ih =>
      intro s hs hds
      obtain ⟨hb, hid⟩ := hds d (mem_cons_self ..)
      have hadv := hs.resolveBranch hb hid
      refine (h.resolveBranch hbranch hs hb hid).trans (ih hadv.wellFormed fun d' hd' => ?_)
      obtain ⟨hb', hid'⟩ := hds d' (mem_cons_of_mem _ hd')
      exact ⟨hadv.isSome_block hb', hadv.isBranchAt hid'⟩
  exact hall _ hs hs.known.deferral

theorem link (p c : BlockId) : Spares P Q s (s.link p c) := by
  refine (modifyBlock fun blk e he _ => ?_).trans (modifyBlock fun blk e he _ => ?_)
  · unfold Block.addChild
    split <;> exact he
  · unfold Block.addParent
    split <;> exact he

theorem addBlock (d : BlockDraft) : Spares P Q s (s.addBlock d).2 := by
  refine .trans (t := { s with blocks := s.blocks.push _ }) ?_ (.foldl (fun s p => link p _) _ _)
  refine ⟨fun {_ i} hi _ => ⟨i, hi, rfl⟩, fun {_ i} hi _ => ⟨i, hi, rfl⟩, fun {b e} he _ => ?_⟩
  simp only [entriesOf, block?_push] at he ⊢
  split
  · rename_i hb
    rw [hb, block?_size] at he
    cases he
  · exact he

/-! ## Arrays -/

theorem consts (h : Sparable P Q) (ns : List Int64) : Spares P Q s (s.consts ns).2 := by
  induction ns generalizing s with
  | nil => exact .refl s
  | cons n ns ih => exact (h.const n).trans ih

theorem addArray (h : Sparable P Q) (name : String) (dims : List Int64) :
    Spares P Q s (s.addArray name dims).2 := by
  have hreserve : ∀ address, Spares P Q s { s with nextAddress := address } :=
    fun _ => of_arenas rfl rfl
  exact (((hreserve _).trans (h.const _)).trans (h.consts _)).trans (of_arenas rfl rfl)

/-- Any values are computed with where no entry is spared. -/
def reckoning (h : Sparable P Q) (hQ : ∀ op, Q op = false) (b : BlockId) : Reckoning b where
  Holds _ := True
  Leads := Spares P Q
  Fit _ _ := True
  refl _ := .refl _
  trans := .trans
  holds _ _ := trivial
  fit_mono _ _ _ := trivial
  fit_empty _ := trivial
  const _ n := ⟨h.const n, trivial⟩
  number op _ _ _ _ _ _ := ⟨h.number (hQ op) .., trivial⟩

theorem elementAddress (h : Sparable P Q) (hQ : ∀ op, Q op = false) (a : ArrayInfo)
    (indices : List Value) : Spares P Q s (s.elementAddress b a indices).2 :=
  ((reckoning h hQ b).elementAddress trivial trivial fun _ _ => ⟨trivial, trivial⟩).1

theorem forgetLoads (h : Sparable P Q) (name : String) : Spares P Q s (s.forgetLoads b name) := by
  refine ⟨fun {_ i} hi _ => ⟨i, hi, rfl⟩, fun {_ i} hi _ => ⟨i, hi, rfl⟩, fun {b' e} he hQ => ?_⟩
  have hload : e.op ≠ .load := by
    intro hop
    rw [hop, h.eq_false rfl] at hQ
    cases hQ
  exact (entriesOf_forgetLoads ..).2 he hload

theorem storeAt (h : Sparable P Q) (name : String) (epoch : Int) (v addr : Value) :
    Spares P Q s (s.storeAt b name epoch v addr) := by
  have hstore : Spares P Q s ((s.emitEffect b .store v addr).2.modifyInst
    (s.emitEffect b .store v addr).1.id fun i => { i with memory := some ⟨name, epoch⟩ }) :=
    .trans (h.emitEffect (h.eq_false rfl) v addr) (modifyInst fun _ _ => .inl rfl)
  exact (hstore.trans (of_arenas (t := State.bumpEpoch _ name) rfl rfl)).trans (h.forgetLoads name)

end Sparable

/-! ## Calls -/

namespace Call

variable {P Q : Opcode → Bool} {s : State}

/-- A call that spares the instructions of `P` and adds none of `Q`. -/
def Spared (P Q : Opcode → Bool) : Call → Prop
  | emit _ op _ _ => Q op = false
  | loadElement .. | storeElement .. => ∀ op, Q op = false
  | reconcileIf _ | placePhi .. => P .phi = false
  | deferBranch .. | resolveBranches | finish => ∀ op, op.isBranch = true → P op = false
  | reconcileLoop .. => False
  | _ => True

theorem spares (c : Call) (h : Sparable P Q) (hs : WellFormed s) (hc : c.Spared P Q) :
    Spares P Q s (c.run s) := by
  have hsame := Spares.refl (P := P) (Q := Q) s
  refine c.run_of_ends ?_
  cases c with
  | const n => exact .discard (ends_step (h.const n))
  | emit b op x y =>
    refine .discard (.bind (ends_block hsame fun blk hb => ?_))
    split
    · split
      · exact .bind (ends_step (.pure (h.const _)))
      · exact .throw hsame
    · exact .bind (ends_step (.pure (h.emitPhi x y)))
    · split
      · exact ends_step (h.number hc ..)
      · exact .bind (ends_step (.pure (h.emitEffect hc x y)))
  | assign b name v =>
    refine .discard ?_
    unfold Builder.assign
    refine .guard (fun _ => hsame) fun _ => .bind (ends_block hsame fun blk hb => .bind (.get ?_))
    split
    · exact .throw hsame
    · exact ends_step (Sparable.assign name v)
  | lookup b name =>
    refine .discard ?_
    unfold Builder.lookup
    exact .guard (fun _ => hsame) fun _ => .bind (ends_block hsame fun _ _ => ends_step
      (h.readAtEnd name _))
  | latestVersion b name =>
    refine .discard (.bind (ends_block hsame fun _ _ => .bind (.get ?_)))
    split
    · exact .pure hsame
    · exact .throw hsame
  | numberedVersion b name number =>
    refine .discard (.bind (ends_block hsame fun _ _ => .bind (.get ?_)))
    dsimp only
    split
    · exact .pure hsame
    · exact .throw hsame
  | newBlock d => exact .discard (ends_newBlock hsame fun _ => Sparable.addBlock d)
  | link p c =>
    exact .bind (ends_block hsame fun _ _ => .bind (ends_block hsame fun _ _ => .modify
      (Sparable.link p c)))
  | dominators b => exact .discard (.bind (ends_block hsame fun _ _ => .pure hsame))
  | openJoin kind => exact .modify (.of_arenas rfl rfl)
  | reconcileIf join =>
    refine .bind (ends_block hsame fun blk hb => .guard (fun _ => hsame) fun _ => .guard
      (fun _ => hsame) fun _ =>
      .bind (ends_closeJoin hsame fun c rest hopen _ => .forM_modify ?_))
    have hclose : Spares P Q s { s with contexts := rest } := .of_arenas rfl rfl
    exact hclose.trans (h.reconcileAll hc (hs.close rest).wellFormed (isSome_of_eq hb) c.touched)
  | placePhi join name x y =>
    refine .discard (.bind (ends_block hsame fun _ _ => .guard (fun _ => hsame) fun _ => .bind
      (ends_instruction hsame fun _ _ =>
      .bind (ends_instruction hsame fun _ _ => .bind (.modify (.bind (.get ?_)))))))
    have hmerge := fun above => (Sparable.addJoinVar join name).trans
      (h.merge hc (hs.addJoinVar join name).wellFormed join name x y above)
    split
    · exact .pure (hmerge _)
    · exact .pure (hmerge _)
  | reconcileLoop header bottom branch => exact hc.elim
  | deferBranch id slot target =>
    exact ends_deferBranch hsame fun hid _ side => (h.aim hc hid side _).trans (.of_arenas rfl rfl)
  | resolveBranches => exact .modify (h.resolveBranches hc hs)
  | declareArray name dims =>
    refine .discard ?_
    unfold Builder.declareArray
    refine .guard (c := dims.isEmpty = true) (fun _ => hsame) fun _ => ?_
    split
    · exact .throw hsame
    · exact .bind (.get (.guard (fun _ => hsame) fun _ => ends_step (h.addArray name dims)))
  | array name => exact .discard (ends_array hsame fun _ => hsame)
  | loadElement b name indices =>
    refine .discard (.bind (ends_accessedArray hsame fun a _ => .bind
      (ends_address hsame (ends_step ?_))))
    exact (h.elementAddress hc a indices).trans (h.number (hc _) ..)
  | storeElement b name indices v =>
    refine .bind (ends_accessedArray hsame fun a _ => .bind (ends_instruction hsame fun _ _ =>
      .bind (ends_address hsame (.modify ?_))))
    exact (h.elementAddress hc a indices).trans (h.storeAt name a.epoch v _)
  | block b => exact .discard (ends_block hsame fun _ _ => hsame)
  | instruction id => exact .discard (ends_instruction hsame fun _ _ => hsame)
  | finish =>
    exact .discard (.bind (.get (.guard (fun _ => hsame) fun _ => .bind
      (.modify
      (.bind
      (.modify (.bind (.get (.pure ((h.resolveBranches hc hs).trans (.of_arenas rfl rfl)))))))))))

/-- The calls that point branches at their targets. -/
def Aims : Call → Prop
  | deferBranch .. | reconcileLoop .. | resolveBranches | finish => True
  | _ => False

/-- The calls that merge variables at a join. -/
def Merges : Call → Prop
  | reconcileIf _ | reconcileLoop .. | placePhi .. => True
  | _ => False

/-- What a call keeps of an instruction that was there before it. -/
structure Preserves (c : Call) (i i' : Instruction) : Prop where
  id : i'.id = i.id
  block : i'.block = i.block
  op : i.op ≠ .empty → i'.op = i.op
  value : i.op.isNumbered = true → i'.x = i.x ∧ i'.y = i.y ∧ i'.srcX = i.srcX ∧ i'.srcY = i.srcY
  retired : i.op.isNumbered = true → i.active = false → i'.active = false
  target : ¬ c.Aims → ∀ side, i.isTarget side = true → i'.slot side = i.slot side
  phi : ¬ c.Merges → i.op = .phi → i'.x = i.x ∧ i'.y = i.y ∧ i'.active = i.active
  effect : i.op.hasEffect = true → i.active = true → i'.active = true

theorem spared_of_not_aims {c : Call} (hc : ¬ c.Aims) : c.Spared Opcode.isBranch
    fun _ => false := by
  cases c with
  | deferBranch | reconcileLoop | resolveBranches | finish => exact (hc trivial).elim
  | emit | reconcileIf | placePhi => rfl
  | loadElement | storeElement => exact fun _ => rfl
  | _ => trivial

theorem spared_of_not_merges {c : Call} (hc : ¬ c.Merges) :
    c.Spared (· == .phi) fun _ => false := by
  cases c with
  | reconcileIf | reconcileLoop | placePhi => exact (hc trivial).elim
  | deferBranch | resolveBranches | finish =>
    intro op hop
    cases op <;> first | rfl | cases hop
  | emit => rfl
  | loadElement | storeElement => exact fun _ => rfl
  | _ => trivial

end Call

theorem Outlives.active_of_hasEffect {i i' : Instruction} (h : Outlives i i')
    (hop : i.op.hasEffect = true) : i'.active = i.active := by
  refine h.lasting ?_ ?_ ?_
  · cases hnum : i.op.isNumbered with
    | false => rfl
    | true =>
      rw [Opcode.hasEffect_of_isNumbered hnum] at hop
      cases hop
  all_goals
    intro he
    rw [he] at hop
    cases hop

/-- The arena only grows, and values are immutable: whatever calls a builder got, one more call,
whether it comes to its end or fails, keeps each instruction as the law of the call says. -/
theorem arena_step (settings : Settings) (calls : List Call) (c : Call) {id : InstId}
    {i : Instruction} (hi : (State.after settings calls).inst? id = some i) :
    ∃ i', (State.after settings (calls ++ [c])).inst? id = some i' ∧ c.Preserves i i' := by
  have hs := wellFormed_after settings calls
  have hafter : State.after settings (calls ++ [c]) = c.run (State.after settings calls) :=
    foldl_append ..
  rw [hafter]
  have hc := c.continues hs
  obtain ⟨i', hi', ho⟩ := hc.inst hi
  refine ⟨i', hi', ?_, ho.block, ho.op_eq, fun hnum => ?_, fun hnum hno => ?_,
    fun haims side hside => ?_, fun hmerges hphi => ?_,
    fun hop ha => (ho.active_of_hasEffect hop).trans ha⟩
  · rw [hc.wellFormed.listed.id_eq hi', hs.listed.id_eq hi]
  · obtain ⟨hx, hy⟩ := ho.operands hnum
    exact ⟨hx, hy, ho.sources hnum⟩
  · cases ha : i'.active with
    | false => rfl
    | true =>
      rw [ho.retired hnum ha] at hno
      cases hno
  · have hbranch : i.op.isBranch = true := (Bool.and_eq_true_iff.mp hside).1
    obtain ⟨i₁, hi₁, hplain⟩ := (c.spares ⟨rfl, fun _ h => by cases h⟩ hs
      (Call.spared_of_not_aims haims)).kept hi hbranch
    cases hi'.symm.trans hi₁
    obtain ⟨-, hx, hy, -⟩ := of_plain hplain
    cases side
    · exact hx
    · exact hy
  · obtain ⟨i₁, hi₁, hplain⟩ := (c.spares ⟨rfl, fun _ h => by cases h⟩ hs
      (Call.spared_of_not_merges hmerges)).kept hi (beq_iff_eq.mpr hphi)
    cases hi'.symm.trans hi₁
    obtain ⟨-, hx, hy, -, hactive⟩ := of_plain hplain
    exact ⟨hx, hy, hactive⟩

/-- The calls of a loop that counts up, but for the one that closes it. -/
def countUp : List Call :=
  [.const 0, .assign 1 "x" ⟨1, .immediate 0 1⟩, .openJoin .loop,
    .newBlock ⟨.loopHeader, .loop, [1, 0], [1]⟩, .newBlock ⟨.loopBody, .none, [2, 1, 0], [2]⟩,
    .const 1, .emit 3 .add ⟨1, .read "x" 1 3 1⟩ ⟨2, .immediate 1 2⟩,
    .assign 3 "x" ⟨3, .result .add 3 (.read "x" 1 3 1) (.immediate 1 2) {}⟩]

/-- The sum of the loop is outdated when the loop is closed: it is retired, and is the same sum
still. -/
theorem arena_step_countUp : ∃ i i', (State.after {} countUp).inst? 3 = some i ∧
    (State.after {} (countUp ++ [.reconcileLoop 2 3 0])).inst? 3 = some i' ∧
    (Call.reconcileLoop 2 3 0).Preserves i i' ∧ i.active = true ∧ i'.active = false := by
  have hi : (State.after {} countUp).inst? 3 = some _ := rfl
  obtain ⟨i', hi', hkeeps⟩ := arena_step {} countUp (.reconcileLoop 2 3 0) hi
  have hretired : (State.after {} (countUp ++ [.reconcileLoop 2 3 0])).isLive 3 = false := by
    decide +kernel
  refine ⟨_, i', hi, hi', hkeeps, rfl, ?_⟩
  rwa [State.isLive, hi', Option.any_some] at hretired
end SingleAssignment.Builder
