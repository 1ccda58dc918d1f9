import Mathlib.Data.List.Forall2
import SingleAssignment.Proofs.Course
import SingleAssignment.Proofs.Steps

/-!
# What steps leave in front

Steps are taken in the blocks from some block on. In front of it a version is new only if it is
version 0 of a variable, and one that stands for an active instruction there goes on to do so
(`State.Anchored`). Where a variable has such a version in front of a loop, the repair of the loop
gives it no value zero (`Changes.quiet`), and so a warning tells of every value zero.

What is merged at a join was assigned in the `if` or loop that is closed there, and in all around it
(`State.Nested`).
-/

namespace SingleAssignment.Builder

open Code List State

/-! ## Open joins and warnings -/

namespace State

/-- The open joins and the warnings. -/
def ledger (s : State) : List JoinContext × Array Diagnostic :=
  (s.contexts, s.diagnostics)

variable (s : State) (b : BlockId) (d : Draft) (pos : Nat)

@[simp] theorem ledger_modifyInst (id : InstId) (f : Instruction → Instruction) :
    (s.modifyInst id f).ledger = s.ledger := by
  unfold modifyInst
  split <;> rfl

@[simp] theorem ledger_modifyBlock (f : Block → Block) : (s.modifyBlock b f).ledger = s.ledger := by
  unfold modifyBlock
  split <;> rfl

@[simp] theorem ledger_insertNew : (s.insertNew b d pos).2.ledger = s.ledger :=
  ledger_modifyBlock ..

@[simp] theorem ledger_place : (s.place b d pos).2.ledger = s.ledger := by
  unfold place
  split
  · simp
  · split
    · simp
    · dsimp only
      split <;> simp [overwrite]

@[simp] theorem ledger_addVersion (ver : Version) : (s.addVersion ver pos).2.ledger = s.ledger :=
  ledger_modifyBlock ..

theorem ledger_const (n : Int64) : (s.const n).2.ledger = s.ledger := by
  rcases Calm.const_cases s n with he | he
  · rw [he]
  · rw [he, record, ledger_modifyBlock, ledger_place]

theorem ledger_notedZero (name : String) : (s.notedZero name).ledger = s.ledger :=
  (ledger_modifyInst ..).trans (ledger_const ..)

theorem ledger_entryPoint : (s.entryPoint b).2.ledger = s.ledger := by
  unfold entryPoint
  split <;> simp

@[simp] theorem ledger_link (p c : BlockId) : (s.link p c).ledger = s.ledger := by
  simp [link]

theorem ledger_addBlock (d : BlockDraft) : (s.addBlock d).2.ledger = s.ledger := by
  have hlinks : ∀ (c : BlockId) (ps : List BlockId) (t : State),
      (ps.foldl (fun s p => s.link p c) t).ledger = t.ledger := by
    intro c ps
    induction ps with
    | nil => exact fun _ => rfl
    | cons p ps ih => exact fun t => (ih _).trans (t.ledger_link p c)
  exact hlinks _ _ _

/-- What is assigned in an open `if` or loop is assigned in those around it. -/
def Nested (s : State) : Prop :=
  s.contexts.Pairwise fun inner outer => ∀ name ∈ inner.touched, name ∈ outer.touched

end State

/-- As many joins are open, and what was assigned in one is assigned in its counterpart. -/
def Wider (cs ds : List JoinContext) : Prop :=
  List.Forall₂ (fun c d => ∀ name ∈ c.touched, name ∈ d.touched) cs ds

/-- The same joins are open, and what was assigned in one still is. -/
def Widens (s t : State) : Prop :=
  Wider s.contexts t.contexts

section

variable {F : BlockId} {W : Want → Prop} {s t u : State} {l : List (BlockId × InstId × Opcode)}

theorem Wider.refl (cs : List JoinContext) : Wider cs cs :=
  forall₂_same.mpr fun _ _ _ hname => hname

theorem Widens.of_eq (h : t.contexts = s.contexts) : Widens s t := by
  unfold Widens
  rw [h]
  exact .refl _

theorem Wider.trans {cs ds es : List JoinContext} (h : Wider cs ds) (h' : Wider ds es) :
    Wider cs es := by
  induction h generalizing es with
  | nil => exact h'
  | cons hc _ ih =>
    cases h' with
    | cons hd hrest => exact .cons (fun name hname => hd name (hc name hname)) (ih hrest)

theorem Wider.mem {cs ds : List JoinContext} (h : Wider cs ds) {name : String}
    (hname : ∀ c ∈ cs, name ∈ c.touched) : ∀ c ∈ ds, name ∈ c.touched := by
  induction h with
  | nil => exact fun c hc => (by cases hc)
  | cons hc _ ih =>
    intro c hmem
    rcases mem_cons.mp hmem with rfl | hmem
    · exact hc name (hname _ (mem_cons_self ..))
    · exact ih (fun c hc => hname c (mem_cons_of_mem _ hc)) c hmem

theorem Widens.trans (h : Widens s t) (h' : Widens t u) : Widens s u :=
  Wider.trans h h'

theorem Widens.touch (s : State) (name : String) : Widens s (s.touch name) := by
  refine forall₂_map_right_iff.mpr (forall₂_same.mpr fun c _ n hn => ?_)
  exact Names.mem_insert.mpr (.inr hn)

/-- A change tells open joins of an assignment at most. -/
theorem Change.contexts (h : Change F W s t) :
    t.contexts = s.contexts ∨ ∃ name, t.contexts = (s.touch name).contexts := by
  have hledger : t.ledger = s.ledger → t.contexts = s.contexts ∨ ∃ name,
    t.contexts = (s.touch name).contexts :=
    fun he => .inl (congrArg Prod.fst he)
  cases h with
  | place => exact hledger (ledger_place ..)
  | phi => exact hledger (ledger_insertNew ..)
  | mark => exact hledger (ledger_addVersion ..)
  | zero => exact .inl (congrArg Prod.fst ((ledger_addVersion ..).trans (ledger_notedZero ..)))
  | inst => exact hledger (ledger_modifyInst ..)
  | version => exact .inl rfl
  | joined => exact hledger (ledger_modifyBlock ..)
  | touched => exact .inr ⟨_, rfl⟩
  | books hinsts hversions hblocks hsize hwarned hcontexts => exact .inl hcontexts

theorem State.Nested.congr (h : s.Nested) (ht : t.contexts = s.contexts) : t.Nested := by
  unfold State.Nested
  rw [ht]
  exact h

theorem State.Nested.touch (h : s.Nested) (name : String) : (s.touch name).Nested := by
  refine pairwise_map.mpr (List.Pairwise.imp (fun hsub n hn => ?_) h)
  exact Names.mem_insert.mpr ((Names.mem_insert.mp hn).imp_right (hsub n))

theorem Step.nested (h : Step F W l s t) (hn : s.Nested) : t.Nested := by
  cases h with
  | change h =>
    rcases h.contexts with he | ⟨name, he⟩
    · exact hn.congr he
    · exact State.Nested.congr (hn.touch name) he
  | effect => exact hn.congr (congrArg Prod.fst (ledger_place ..))
  | blank => exact hn.congr (congrArg Prod.fst (ledger_entryPoint ..))
  | aimed => exact hn.congr (congrArg Prod.fst (ledger_modifyInst ..))
  | outline hinsts hversions hwarned hold hnew hcontexts => exact hn.congr hcontexts
  | opened hwant => exact pairwise_cons.mpr ⟨fun _ _ _ hname => (by cases hname), hn⟩
  | closed hwant hcontexts =>
    unfold State.Nested at hn
    rw [hcontexts] at hn
    exact (pairwise_cons.mp hn).2

theorem Steps.nested (h : Steps F W l s t) (hn : s.Nested) : t.Nested := by
  induction h with
  | refl => exact hn
  | tail _ hstep ih => exact hstep.nested (ih hn)

theorem Step.widens (h : Step F W l s t) (hW : ¬ W .scope) : Widens s t := by
  cases h with
  | change h =>
    rcases h.contexts with he | ⟨name, he⟩
    · exact .of_eq he
    · exact (Widens.touch s name).trans (.of_eq he)
  | effect => exact .of_eq (congrArg Prod.fst (ledger_place ..))
  | blank => exact .of_eq (congrArg Prod.fst (ledger_entryPoint ..))
  | aimed => exact .of_eq (congrArg Prod.fst (ledger_modifyInst ..))
  | outline hinsts hversions hwarned hold hnew hcontexts => exact .of_eq hcontexts
  | opened hwant => exact absurd hwant hW
  | closed hwant => exact absurd hwant hW

theorem Steps.widens (h : Steps F W l s t) (hW : ¬ W .scope) : Widens s t := by
  induction h with
  | refl => exact .of_eq rfl
  | tail _ hstep ih => exact ih.trans (hstep.widens hW)

/-! ## What is merged -/

theorem Step.mem_joinVars (h : Step F W l s t) (hs : Timelines s) {j : BlockId} {name : String}
    (hname : name ∈ t.view.joinVars j) : name ∈ s.view.joinVars j ∨ W (.join j name) := by
  have hsame : t.view.joinVars = s.view.joinVars → name ∈ s.view.joinVars j ∨ W (.join j name) :=
    fun he => .inl (he ▸ hname)
  cases h with
  | change h => exact h.mem_joinVars hs hname
  | @effect _ b op x y hF hb hentry hop hopen =>
    obtain ⟨blk, hb⟩ := Option.isSome_iff_exists.mp hb
    have hempty : op ≠ .empty := by
      rintro rfl
      cases hop
    exact hsame ((congrArg View.joinVars
      (hs.place (d := ⟨op, x.operand, y.operand, x.src, y.src⟩) hb hempty).2.1).trans rfl)
  | blank hb hentry hnone =>
    obtain ⟨blk, hb⟩ := Option.isSome_iff_exists.mp hb
    exact hsame (congrArg View.joinVars (hs.entryPoint hb).1)
  | aimed hi hside => exact (Change.aim hi hside _).mem_joinVars hs hname
  | outline hinsts hversions hwarned hold hnew hcontexts =>
    refine .inl ?_
    simp only [State.view] at hname ⊢
    cases hb : s.block? j with
    | none =>
      cases hb' : t.block? j with
      | none => simp [hb'] at hname
      | some blk => simp [hb', (hnew hb hb').2.2.1] at hname
    | some blk =>
      obtain ⟨blk', hb', hcore⟩ := hold hb
      have hvars : blk'.joinVars = blk.joinVars := congrArg (·.2.2.2) hcore
      simpa [hb', hvars] using hname
  | opened hwant => exact .inl hname
  | closed hwant hcontexts => exact .inl hname

/-- A variable that is merged at a join was before, or was asked for. -/
theorem Steps.mem_joinVars (h : Steps F W l s t) (hs : Timelines s) {j : BlockId} {name : String}
    (hname : name ∈ t.view.joinVars j) : name ∈ s.view.joinVars j ∨ W (.join j name) := by
  induction h with
  | refl => exact .inl hname
  | tail hsteps hstep ih =>
    rcases hstep.mem_joinVars (hsteps.logged hs).timelines hname with hold | hwant
    · exact ih hs hold
    · exact .inr hwant

/-! ## Versions -/

/-- Where a version comes from: it was there before, was asked for in the changed blocks, or is
version 0 of a variable. -/
inductive Origin (F : BlockId) (W : Want → Prop) (s t : State) (v : VersionId) (ver : Version) :
    Prop
  /-- It was there; what it stands for is another instruction at most where that was to be
  expected. -/
  | old {ver₀ : Version} (hold : s.versions[v]? = some ver₀) (href : ver.ref = ver₀.ref)
      (hinst : F ≤ ver.block ∧ startBlock < ver.block ∧ t.Recorded ver ∨ ver.inst = ver₀.inst)
  | new (hnone : s.versions[v]? = none) (hF : F ≤ ver.block) (hnumber : ver.number ≠ 0)
      (hwant : W (.mark ver.block ver.var)) (hrec : t.Recorded ver)
  | zero {cause : Option ZeroCause} {b : BlockId} (hnone : s.versions[v]? = none)
      (hwant : W (.zero cause b ver.var)) (hnumber : ver.number = 0)
      (hblock : ver.block = startBlock) (hconst : t.HoldsConst ver.inst 0) (hrec : t.Recorded ver)

theorem Origin.of_versions {v : VersionId} {ver : Version} (h : t.versions = s.versions)
    (hv : t.versions[v]? = some ver) : Origin F W s t v ver :=
  .old (h ▸ hv) rfl (.inr rfl)

theorem Change.origin (h : Change F W s t) (hs : Timelines s) {v : VersionId} {ver : Version}
    (hv : t.versions[v]? = some ver) : Origin F W s t v ver := by
  cases h with
  | place hb hempty hop hF hput =>
    obtain ⟨blk, hb⟩ := Option.isSome_iff_exists.mp hb
    exact .of_versions (hs.puts_place hb hempty).versions hv
  | phi hb hop hF =>
    obtain ⟨blk, hb⟩ := Option.isSome_iff_exists.mp hb
    exact .of_versions (hs.puts_insertNew hb).versions hv
  | mark hb hF hnumber hwant hissued hput hrec =>
    rw [versions_addVersion] at hv
    split at hv
    · rename_i he
      cases hv
      exact .new (by rw [he]; exact Array.getElem?_eq_none (Nat.le_refl _)) hF hnumber hwant
        fun i hi => hrec i ((inst?_addVersion ..).symm.trans hi)
    · exact .old hv rfl (.inr rfl)
  | zero hentry hstart hwant hroot hnone hconst =>
    rw [versions_addZero, versions_const hs hentry] at hv
    split at hv
    · rename_i he
      cases hv
      obtain ⟨i, hi, hrest⟩ := hconst.notedZero _
      exact .zero (by rw [he]; exact Array.getElem?_eq_none (Nat.le_refl _)) hwant rfl rfl
        ⟨i, (inst?_addZero ..).trans hi, hrest⟩
        fun i hi => recorded_note (s.const 0).2 _ i ((inst?_addZero ..).symm.trans hi)
    · exact .old hv rfl (.inr rfl)
  | inst => exact .of_versions (versions_modifyInst ..) hv
  | @version v' f href hissued hF =>
    rw [State.modifyVersion, Array.getElem?_modify] at hv
    split at hv
    · rename_i he
      subst he
      obtain ⟨ver₀, hver₀, rfl⟩ := Option.map_eq_some_iff.mp hv
      obtain ⟨hle, hstart⟩ := hF ver₀ hver₀
      rw [← show (f ver₀).block = ver₀.block from congrArg (·.block) (href ver₀)] at hle hstart
      exact .old hver₀ (href ver₀) (hstart.imp_left fun hlt => ⟨hle, hlt⟩)
    · exact .old hv rfl (.inr rfl)
  | joined => exact .of_versions (versions_modifyBlock ..) hv
  | touched => exact .of_versions rfl hv
  | books hinsts hversions hblocks hsize hwarned hcontexts => exact .of_versions hversions hv

theorem Step.origin (h : Step F W l s t) (hs : Timelines s) {v : VersionId} {ver : Version}
    (hv : t.versions[v]? = some ver) : Origin F W s t v ver := by
  cases h with
  | change h => exact h.origin hs hv
  | effect hF hb hentry hop hopen => exact .of_versions (Step.versions_of_effect hs hb hop) hv
  | blank hb hentry hnone => exact .of_versions (Step.versions_of_blank hnone) hv
  | aimed => exact .of_versions (versions_modifyInst ..) hv
  | outline hinsts hversions hwarned hold hnew hcontexts => exact .of_versions hversions hv
  | opened hwant => exact .of_versions rfl hv
  | closed hwant hcontexts => exact .of_versions rfl hv

/-- Every version is recorded by the instruction that it stands for. -/
def State.AllRecorded (s : State) : Prop :=
  ∀ (v : VersionId) (ver : Version), s.versions[v]? = some ver → s.Recorded ver

theorem Step.allRecorded (h : Step F W l s t) (hs : Timelines s) (ha : s.AllIssued)
    (hr : s.AllRecorded) : t.AllRecorded := by
  intro v ver hv
  cases h.origin hs hv with
  | @old ver₀ hold href hinst =>
    rcases hinst with ⟨-, -, hrec⟩ | hinst
    · exact hrec
    · -- It stands for what it stood for, and what is recorded stays.
      intro i hi
      have hpos : 0 < ver.inst := by
        by_contra hle
        rw [State.inst?, if_neg hle] at hi
        cases hi
      rw [hinst] at hi hpos
      obtain ⟨i₀, hi₀⟩ := (ha v ver₀ hold).id.exists_inst? hpos
      exact href ▸ (h.logged hs).persists.deps hi₀ hi (hr v ver₀ hold i₀ hi₀)
  | new hnone hF hnumber hwant hrec => exact hrec
  | zero hnone hwant hnumber hblock hconst hrec => exact hrec

theorem Steps.allRecorded (h : Steps F W l s t) (hs : Timelines s) (ha : s.AllIssued)
    (hr : s.AllRecorded) : t.AllRecorded := by
  induction h with
  | refl => exact hr
  | tail h h' ih => exact h'.allRecorded (h.logged hs).timelines (h.allIssued hs ha) (ih hs ha hr)

/-! ## Instructions and where they come from -/

section

variable {id : InstId} {i i' : Instruction}

theorem Step.stems (h : Step F W l s t) (hs : Timelines s) (hi' : t.inst? id = some i') :
    Stems F s id i' := by
  cases h with
  | change h => exact h.stems hs hi'
  | @effect _ b op x y hF hb hentry hop hopen =>
    obtain ⟨blk, hblk⟩ := Option.isSome_iff_exists.mp hb
    have hempty : op ≠ .empty := by
      rintro rfl
      cases hop
    exact (hs.puts_place (d := ⟨op, x.operand, y.operand, x.src, y.src⟩) hblk hempty).stems hb
      (fun _ => hempty) hi'
  | @blank _ b hb hentry hnone =>
    obtain ⟨blk, hblk⟩ := Option.isSome_iff_exists.mp hb
    have hputs : Puts s b { op := .empty } (s.endOf b) _ := hs.puts_insertNew hblk
    rw [entryPoint_of_none hnone] at hi'
    exact hputs.stems hb (fun he => absurd he hentry) ((inst?_modifyBlock ..).symm.trans hi')
  | @aimed _ id' i₀ side o hi₀ hside =>
    rw [inst?_modifyInst] at hi'
    split at hi'
    · rename_i he
      subst he
      rw [hi₀] at hi'
      cases hi'
      refine .old hi₀ (withSlot_keeps ..).2.1 (withSlot_keeps ..).2.2.2
        (.inr (Timelines.face_withSlot hside o)) ?_
      cases side <;> exact .same F i₀
    · exact .of_eq rfl hi'
  | outline hinsts => exact .of_eq (by rw [State.inst?, State.inst?, hinsts]) hi'
  | opened hwant => exact .of_eq rfl hi'
  | closed hwant hcontexts => exact .of_eq rfl hi'

/-- An instruction in front of the changed blocks stays where it is, stays active if it was, and
stays as it is unless it is empty. -/
theorem Step.inst_before (h : Step F W l s t) (hs : Timelines s) (hi : s.inst? id = some i)
    (hF : i.block < F) :
    ∃ i', t.inst? id = some i' ∧ i'.block = i.block ∧ (i.active = true → i'.active = true) ∧
      (i.op ≠ .empty → face i' = face i) := by
  obtain ⟨i', hi', hblock, -⟩ := (h.logged hs).persists.inst hi
  refine ⟨i', hi', hblock, ?_⟩
  cases h.stems hs hi' with
  | old hi₀ _ _ hsame _ =>
    cases hi.symm.trans hi₀
    have hface := hsame.resolve_left (Int.not_le.mpr hF)
    exact ⟨fun ha => (congrArg Instruction.active hface).trans ha, fun _ => hface⟩
  | put _ hold _ hactive _ => exact ⟨fun _ => hactive, fun hne => absurd (hold i hi).1 hne⟩

end

theorem Steps.secluded (h : Steps F W l s t) (hs : Timelines s) (hsec : s.Secluded F) :
    t.Secluded F := by
  induction h with
  | refl => exact hsec
  | tail h h' ih => exact (ih hs hsec).of_stems fun hi' => h'.stems (h.logged hs).timelines hi'

/-- The block of an instruction is there. -/
def State.Housed (s : State) : Prop :=
  ∀ {id i}, s.inst? id = some i → (s.block? i.block).isSome

theorem Step.housed (h : Step F W l s t) (hs : Timelines s) (hh : s.Housed) : t.Housed := by
  intro id i' hi'
  refine (h.logged hs).block ?_
  cases h.stems hs hi' with
  | old hi hblock _ _ _ => exact hblock ▸ hh hi
  | put hb _ _ _ _ => exact hb

theorem Steps.housed (h : Steps F W l s t) (hs : Timelines s) (hh : s.Housed) : t.Housed := by
  induction h with
  | refl => exact hh
  | tail h h' ih => exact h'.housed (h.logged hs).timelines (ih hs hh)

/-- No empty instruction holds a place in the block in front of all code. -/
def State.Paved (s : State) : Prop :=
  ∀ {id i}, s.inst? id = some i → i.block = entryBlock → i.op ≠ .empty

theorem Step.paved (h : Step F W l s t) (hs : Timelines s) (hp : s.Paved) : t.Paved := by
  intro id i' hi' hentry
  cases h.stems hs hi' with
  | old hi hblock hop _ _ => exact hop ▸ hp hi (hblock ▸ hentry)
  | put _ _ hop _ _ => exact hop hentry

theorem Steps.paved (h : Steps F W l s t) (hs : Timelines s) (hp : s.Paved) : t.Paved := by
  induction h with
  | refl => exact hp
  | tail h h' ih => exact h'.paved (h.logged hs).timelines (ih hs hp)

/-! ## Anchors -/

namespace State

/-- The versions in front of a block stand for instructions in front of it, if for any. -/
def Founded (s : State) (n : BlockId) : Prop :=
  ∀ (v : VersionId) (ver : Version), s.versions[v]? = some ver → ver.block < n →
    ver.inst ≤ 0 ∨ ∃ i, s.inst? ver.inst = some i ∧ i.block < n

theorem Founded.of_housed {s : State} (ha : s.AllIssued) (hh : s.Housed) {n : BlockId}
    (hn : ∀ b, (s.block? b).isSome → b < n) : s.Founded n := by
  intro v ver hv _
  by_cases hpos : 0 < ver.inst
  · obtain ⟨i, hi⟩ := (ha _ _ hv).id.exists_inst? hpos
    exact .inr ⟨i, hi, hn _ (hh hi)⟩
  · exact .inl (Int.not_lt.mp hpos)

/-- A variable has a version above the end of a block that stands, as the version itself, in front
of block `n` and is active. -/
def Anchored (s : State) (n b : BlockId) (name : String) : Prop :=
  ∃ (v : VersionId) (ver : Version) (i : Instruction), s.versions[v]? = some ver ∧ ver.var = name ∧
    ver.block ∈ s.dominatorsOf b ∧ ver.block < n ∧ s.inst? ver.inst = some i ∧ i.block < n ∧
    i.active = true

theorem Anchored.mono {n b b' : BlockId} {name : String} (h : s.Anchored n b name)
    (hdoms : ∀ d ∈ s.dominatorsOf b, d ∈ s.dominatorsOf b') : s.Anchored n b' name := by
  obtain ⟨v, ver, i, hv, hvar, hdom, hrest⟩ := h
  exact ⟨v, ver, i, hv, hvar, hdoms _ hdom, hrest⟩

theorem Anchored.held {n b : BlockId} {name : String} (h : s.Anchored n b name) :
    s.Held b name := by
  obtain ⟨v, ver, i, hv, hvar, hdom, -, hi, -, hactive⟩ := h
  exact ⟨v, ver, hv, hvar, hdom, by simp [isLive, hi, hactive]⟩

end State

theorem Step.founded (h : Step F W l s t) (hs : Timelines s) (hF : startBlock < F)
    (hf : s.Founded F) : t.Founded F := by
  intro v ver hv hblock
  cases h.origin hs hv with
  | @old ver₀ hold href hinst =>
    rw [hinst.resolve_left fun hle => absurd hblock (Int.not_lt.mpr hle.1)]
    refine (hf v ver₀ hold ((congrArg (·.block) href : ver.block = ver₀.block) ▸ hblock)).imp_right
      ?_
    rintro ⟨i, hi, hlt'⟩
    obtain ⟨i', hi', hb', -⟩ := (h.logged hs).persists.inst hi
    exact ⟨i', hi', hb' ▸ hlt'⟩
  | new hnone hF' => exact absurd hblock (Int.not_lt.mpr hF')
  | zero hnone hwant hnumber hb hconst =>
    obtain ⟨i, hi, -, -, hentry, -⟩ := hconst
    exact .inr ⟨i, hi, hentry ▸ Int.lt_trans (by decide) hF⟩

theorem Steps.founded (h : Steps F W l s t) (hs : Timelines s) (hF : startBlock < F)
    (hf : s.Founded F) : t.Founded F := by
  induction h with
  | refl => exact hf
  | tail hsteps hstep ih => exact hstep.founded (hsteps.logged hs).timelines hF (ih hs hf)

/-- An anchor stays. -/
theorem Step.anchored (h : Step F W l s t) (hs : Timelines s) {b : BlockId} {name : String}
    (ha : s.Anchored F b name) : t.Anchored F b name := by
  obtain ⟨v, ver, i, hv, hvar, hdom, hlt, hi, hib, hactive⟩ := ha
  obtain ⟨ver', hv', href⟩ := (h.logged hs).persists.version hv
  obtain ⟨hvar', hblock, -⟩ := VersionRef.mk.inj href
  obtain ⟨i', hi', hib', hactive', -⟩ := h.inst_before hs hi hib
  have hb : (s.block? b).isSome := isSome_block_of_dominatorsOf hdom
  have hinst : ver'.inst = ver.inst := by
    cases h.origin hs hv' with
    | old hold href hinst =>
      cases hv.symm.trans hold
      exact hinst.resolve_left fun hle => absurd hlt (Int.not_lt.mpr (hblock ▸ hle.1))
    | new hnone => exact absurd (hv.symm.trans hnone) (by simp)
    | zero hnone => exact absurd (hv.symm.trans hnone) (by simp)
  exact ⟨v, ver', i', hv', hvar'.trans
    hvar, by rw [h.dominatorsOf hs hb, hblock]; exact hdom, hblock ▸ hlt,
    hinst ▸ hi', hib' ▸ hib, hactive' hactive⟩

theorem Changes.anchored (h : Changes F W s t) (hs : Timelines s) {b : BlockId} {name : String}
    (ha : s.Anchored F b name) : t.Anchored F b name := by
  induction h with
  | refl => exact ha
  | tail hsteps hstep ih => exact (Step.change hstep).anchored (Changes.calm hsteps hs).timelines ih

/-- Changes that ask for the value zero only of variables that are anchored do not ask for it at
all. -/
theorem Changes.quiet {W' : Want → Prop} (h : Changes F W s t) (hs : Timelines s)
    (hzero : ∀ cause b name, W (.zero cause b name) → s.Anchored F b name)
    (hmark : ∀ b name, W (.mark b name) → W' (.mark b name))
    (hjoin : ∀ j name, W (.join j name) → W' (.join j name)) : Changes F W' s t := by
  induction h with
  | refl => exact .refl
  | tail hsteps hstep ih =>
    have ht := (Changes.calm hsteps hs).timelines
    refine ih.tail ?_
    cases hstep with
    | place hb hempty hop hF hput => exact .place hb hempty hop hF hput
    | phi hb hop hF => exact .phi hb hop hF
    | mark hb hF hnumber hwant hissued hput hrec =>
      exact .mark hb hF hnumber (hmark _ _ hwant) hissued hput hrec
    | zero hentry hstart hwant hroot hnone hconst =>
      exact absurd ((Changes.anchored hsteps hs (hzero _ _ _ hwant)).held) hnone
    | inst hid hop hblock hblank hact hF hdeps => exact .inst hid hop hblock hblank hact hF hdeps
    | version href hissued hF => exact .version href hissued hF
    | joined hwant => exact .joined (hjoin _ _ hwant)
    | touched => exact .touched
    | books hinsts hversions hblocks hsize hwarned hcontexts =>
      exact .books hinsts hversions hblocks hsize hwarned hcontexts

/-- A variable has a version above the end of a block. -/
def State.HasVersion (s : State) (b : BlockId) (name : String) : Prop :=
  ∃ (v : VersionId) (ver : Version), s.versions[v]? = some ver ∧ ver.var = name ∧
    ver.block ∈ s.dominatorsOf b

/-- A version above a block stays there. -/
theorem Steps.hasVersion (h : Steps F W l s t) (hs : Timelines s) {b : BlockId} {name : String}
    (hv : s.HasVersion b name) : t.HasVersion b name := by
  obtain ⟨v, ver, hv, hvar, hdom⟩ := hv
  obtain ⟨ver', hv', href⟩ := (h.logged hs).persists.version hv
  obtain ⟨hvar', hblock, -⟩ := VersionRef.mk.inj href
  exact ⟨v, ver', hv', hvar'.trans hvar, by
    rw [h.dominatorsOf hs (isSome_block_of_dominatorsOf hdom), hblock]
    exact hdom⟩

end

/-! ## Reading in front of a loop -/

section

variable {floor n p b : BlockId} {s : State} {name : String}

open State

/-- A version that is visible is alive and stands above. -/
theorem Timelines.visibleWith_spec (h : Timelines s) {alive : Version → Bool} {limit : Nat}
    {v : VersionId} (hv : s.visibleWith alive b name limit = some v) : ∃ ver,
    s.versions[v]? = some ver ∧ ver.var = name ∧ ver.block ∈ s.dominatorsOf b ∧
      alive ver = true := by
  have hlast : ∀ {d : BlockId} {vs : List VersionId}, vs ⊆ s.versionsOf d name →
    d ∈ s.dominatorsOf b → s.lastOf alive vs = some v → ∃ ver, s.versions[v]? = some ver ∧
    ver.var = name ∧
        ver.block ∈ s.dominatorsOf b ∧ alive ver = true := by
    intro d vs hvs hd hm
    have halive := find?_some hm
    obtain ⟨ver, hver, hblock, hvar⟩ :=
      h.version_of_mem (hvs (mem_reverse.mp (mem_of_find?_eq_some hm)))
    exact ⟨ver, hver, hvar, hblock ▸ hd, by simpa [hver] using halive⟩
  unfold visibleWith at hv
  split at hv
  · cases hv
  · rename_i d ds hdoms
    rcases Option.or_eq_some_iff.mp hv with hv | ⟨-, hv⟩
    · exact hlast (fun _ hx => mem_of_mem_filter hx) (hdoms ▸ mem_cons_self ..) hv
    · obtain ⟨d', hd', hv⟩ := exists_of_findSome?_eq_some hv
      exact hlast (List.Subset.refl _) (hdoms ▸ mem_cons_of_mem _ hd') hv

/-- Where a variable is read, it has a version then. -/
theorem Laid.hasVersion_readAtEnd (h : Laid floor s) (name : String) (hb : b ≠ entryBlock)
    (hroot : s.Rooted b) (cause : Option ZeroCause) :
    (s.readAtEnd b name cause).2.HasVersion b name := by
  unfold State.readAtEnd
  rw [if_neg hb]
  cases hv : s.visible? b name with
  | some c =>
    obtain ⟨ver, hver, hvar, hdom, -⟩ := h.timelines.visibleWith_spec hv
    exact ⟨c, ver, hver, hvar, hdom⟩
  | none =>
    have hcalm := Calm.zero (b := b) h.timelines (isSome_block h.valid_entry)
      (isSome_block h.valid_start) name cause
    have hzero : (s.addZero b name cause).2.HasVersion b name := by
      refine ⟨(s.const 0).2.versions.size, _, (versions_addZero ..).trans (if_pos rfl), rfl, ?_⟩
      rw [dominatorsOf_congr hcalm.graph]
      exact hroot hb
    have hrest : Changes b (fun _ => True) (s.addZero b name cause).2
      (s.implicitZero b name cause).2 :=
      .implicitZero_rest name cause
    exact (Steps.of_changes hrest).hasVersion hcalm.timelines hzero

/-- Where a variable is read, it has an anchor then. -/
theorem Laid.anchored_readAtEnd (h : Laid floor s) (hf : s.Founded n) (hn : startBlock < n)
    (hp : p ≠ entryBlock) (hroot : startBlock ∈ s.dominatorsOf p)
    (hdoms : ∀ d ∈ s.dominatorsOf p, d < n) (name : String) (cause : Option ZeroCause) :
    (s.readAtEnd p name cause).2.Anchored n p name := by
  have hc : Changes n (fun _ => True) s (s.readAtEnd p name cause).2 :=
    h.changes_readAtEnd (fun _ => hroot) fun _ => trivial
  cases hv : s.visible? p name with
  | some c =>
    obtain ⟨ver, hver, hvar, hdom, hlive⟩ := h.timelines.visibleWith_spec hv
    have hstay : s.Anchored n p name := by
      rcases hf c ver hver (hdoms _ hdom) with hneg | ⟨i, hi, hlt⟩
      · simp [isLive, inst?, Int.not_lt.mpr hneg] at hlive
      · exact ⟨c, ver, i, hver, hvar, hdom, hdoms _ hdom, hi,
          hlt, by simpa [isLive, hi] using hlive⟩
    exact Changes.anchored hc h.timelines hstay
  | none =>
    have hzero : (s.addZero p name cause).2.Anchored n p name := by
      obtain ⟨i, hi, -, -, hentry, hactive⟩ := (h.holdsConst_const 0).notedZero name
      have hgraph := (Calm.zero (b := p) h.timelines (isSome_block h.valid_entry)
        (isSome_block h.valid_start) name cause).graph
      refine ⟨(s.const 0).2.versions.size, _, i, (versions_addZero ..).trans (if_pos rfl), rfl, ?_,
        hn, (inst?_addZero ..).trans hi, hentry ▸ Int.lt_trans (by decide) hn, hactive⟩
      rw [dominatorsOf_congr hgraph]
      exact hroot
    have hrest : Changes n (fun _ => True) (s.addZero p name cause).2
      (s.readAtEnd p name cause).2 := by
      unfold State.readAtEnd
      rw [if_neg hp, hv]
      exact .implicitZero_rest name cause
    exact Changes.anchored hrest (Calm.zero h.timelines (isSome_block h.valid_entry)
      (isSome_block h.valid_start) name cause).timelines hzero

/-! ## Merging at a join -/

/-- Variables can be merged at a join, whose parents the first block with code dominates. -/
structure Merging (F : BlockId) (W : Want → Prop) (j : BlockId) (names : List String) (s : State) :
    Prop where
  valid : (s.view.graph j).isSome
  low : F ≤ j
  start : startBlock < j
  root : ∀ p ∈ [(s.joinParents j).1, (s.joinParents j).2], s.Rooted p
  zero : ∀ name ∈ names, ∀ p, W (.zero (some .partialJoin) p name)
  mark : ∀ name ∈ names, W (.mark j name)
  join : ∀ name ∈ names, W (.join j name)

namespace Merging

variable {F j : BlockId} {W : Want → Prop} {names : List String} {t : State}

theorem congr (h : Merging F W j names s) (hg : t.view.graph = s.view.graph) :
    Merging F W j names t :=
  ⟨hg ▸ h.valid, h.low, h.start, fun p hp => (h.root p (joinParents_congr hg j ▸ hp)).congr hg,
    h.zero, h.mark, h.join⟩

theorem mono {names' : List String} (h : Merging F W j names s)
    (hsub : ∀ name ∈ names', name ∈ names) : Merging F W j names' s :=
  ⟨h.valid, h.low, h.start, h.root, fun name hn => h.zero name (hsub name hn), fun name hn => h.mark
    name (hsub name hn), fun name hn => h.join name (hsub name hn)⟩

theorem changes_reconcile (h : Merging F W j names s) (hs : Laid floor s) (ha : s.AllIssued)
    (hname : name ∈ names) : Changes F W s (s.reconcile j name) :=
  hs.changes_reconcile ha h.valid h.low h.start name (h.join name hname) (h.mark name hname) h.root
    fun p _ => h.zero name hname p

theorem changes_reconcileAll (h : Merging F W j names s) (hs : Laid floor s) (ha : s.AllIssued) :
    Changes F W s (s.reconcileAll j names) := by
  induction names generalizing s with
  | nil => exact .refl
  | cons name names ih =>
    have hc := h.changes_reconcile hs ha (mem_cons_self ..)
    have hw := hs.reconcile h.valid name
    exact hc.trans (ih ((h.congr hw.graph).mono fun n hn => mem_cons_of_mem _ hn) hw.laid
      (Changes.allIssued hc hs.timelines ha))

/-- The variables are merged one after the other. -/
theorem split_reconcileAll (h : Merging F W j names s) (hs : Laid floor s) (ha : s.AllIssued)
    (hname : name ∈ names) :
    ∃ s₁, Changes F W s s₁ ∧ AddsCode floor s s₁ ∧ s₁.AllIssued ∧
      Changes F W (s₁.reconcile j name) (s.reconcileAll j names) := by
  induction names generalizing s with
  | nil => cases hname
  | cons name' names ih =>
    have hc := h.changes_reconcile hs ha (mem_cons_self ..)
    have hw := hs.reconcile h.valid name'
    have ha' := Changes.allIssued hc hs.timelines ha
    have h' : Merging F W j names (s.reconcile j name') :=
      (h.congr hw.graph).mono fun n hn => mem_cons_of_mem _ hn
    rcases mem_cons.mp hname with rfl | hmem
    · exact ⟨s, .refl, .refl hs, ha, h'.changes_reconcileAll hw.laid ha'⟩
    · obtain ⟨s₁, hc₁, hw₁, ha₁, hrest⟩ := ih h' hw.laid ha' hmem
      exact ⟨s₁, hc.trans hc₁, hw.trans hw₁, ha₁, hrest⟩

/-- Behind a merge the variable has an anchor in front of the join, if the first parent is there. -/
theorem anchored_reconcile (h : Merging j W j names s) (hs : Laid floor s) (ha : s.AllIssued)
    (hf : s.Founded j) (hp : (s.joinParents j).1 ≠ entryBlock)
    (hdoms : ∀ d ∈ s.dominatorsOf (s.joinParents j).1, d < j) (hname : name ∈ names) :
    (s.reconcile j name).Anchored j (s.joinParents j).1 name := by
  have hjoin := hs.addJoinVar (b := j) name
  have hjoined : Changes j W s (s.addJoinVar j name) := .single (.joined (h.join name hname))
  have hfounded : (s.addJoinVar j name).Founded j :=
    (Steps.of_changes hjoined).founded hs.timelines h.start hf
  have hdoms' := dominatorsOf_congr hjoin.graph (s.joinParents j).1
  have hroot := h.root _ (mem_cons_self ..) hp
  have hread := hjoin.laid.anchored_readAtEnd hfounded h.start hp (hdoms' ▸ hroot)
    (hdoms' ▸ hdoms) name (some .partialJoin)
  exact Changes.anchored (hs.changes_reconcile_rest ha h.valid h.low h.start name
    (h.mark name hname) h.root (h.zero name hname _)) (hjoin.laid.readAtEnd name _).1.laid.timelines
    hread

theorem anchored_reconcileAll (h : Merging j W j names s) (hs : Laid floor s) (ha : s.AllIssued)
    (hf : s.Founded j) (hp : (s.joinParents j).1 ≠ entryBlock)
    (hdoms : ∀ d ∈ s.dominatorsOf (s.joinParents j).1, d < j) (hname : name ∈ names) :
    (s.reconcileAll j names).Anchored j (s.joinParents j).1 name := by
  obtain ⟨s₁, hc, hw, ha₁, hrest⟩ := h.split_reconcileAll hs ha hname
  have hparents := joinParents_congr hw.graph j
  have h₁ := (h.congr hw.graph).anchored_reconcile hw.laid ha₁
    ((Steps.of_changes hc).founded hs.timelines h.start hf) (hparents ▸ hp)
    (by rw [hparents, dominatorsOf_congr hw.graph]; exact hdoms) hname
  rw [hparents] at h₁
  exact Changes.anchored hrest (hw.laid.reconcile (hw.isSome h.valid) name).laid.timelines h₁

end Merging

/-! ## Loops -/

theorem joinParents_eq (s : State) (j : BlockId) :
    s.joinParents j = ((s.view.parents j).getD 0 0, (s.view.parents j).getD 1 0) := by
  have hps : s.view.parents j = ((s.block? j).map (·.parents)).getD [] := by
    simp [View.parents, State.view, Block.shape, Function.comp_def]
  rw [hps]
  rfl

theorem mem_joinParents {j : BlockId} (hp : p ∈ [(s.joinParents j).1, (s.joinParents j).2]) :
    p = entryBlock ∨ p ∈ s.view.parents j := by
  have hget : ∀ n, (s.view.parents j).getD n 0 = entryBlock ∨ (s.view.parents j).getD n
    0 ∈ s.view.parents j := by
    intro n
    rw [getD_eq_getElem?_getD]
    cases hn : (s.view.parents j)[n]? with
    | none => exact .inl rfl
    | some q => exact .inr (mem_of_getElem? hn)
  rw [joinParents_eq] at hp
  rcases mem_cons.mp hp with rfl | hp
  · exact hget 0
  · cases mem_singleton.mp hp
    exact hget 1

/-- A block dominates all blocks from the `n`-th on if it dominates those in front that they are
entered from. -/
theorem View.Entered.mem_doms {V : View} (h : V.Entered) (hg : V.Graph) {d : BlockId}
    (hn : entryBlock < n) (hin : ∀ b, n ≤ b → ∀ p ∈ V.parents b, n ≤ p ∨ d ∈ V.doms p ∨
      d ∈ V.doms b) :
    ∀ (k : Nat) (b : BlockId), b < k → n ≤ b → (V.graph b).isSome → d ∈ V.doms b := by
  intro k
  induction k with
  | zero =>
    intro b hk hb
    exact absurd (Int.lt_of_lt_of_le hn hb) (Int.not_lt.mpr (Int.le_of_lt hk))
  | succ k ih =>
    intro b hk hb hvalid
    by_contra hd
    obtain ⟨p, hp, hlt, hdp⟩ := h b d hvalid (Int.ne_of_gt (Int.lt_of_lt_of_le hn hb)) hd
    rcases hin b hb p hp with hnp | hdom | hdom
    · exact hdp (ih p (by lia) hnp (hg.parent hp).1)
    · exact hdp hdom
    · exact hd hdom

/-- The first block with code dominates all others if the block in front of it leads nowhere
else. -/
theorem Sound.rooted (h : Sound floor s) (hgate : s.view.children entryBlock = [startBlock])
    (hb : (s.view.graph b).isSome) : s.Rooted b := by
  have hg := h.laid.layout.graph
  have hvalid := (hg.valid b).mp hb
  intro hne
  rw [Lowering.dominatorsOf_eq]
  refine h.entered.mem_doms hg (n := startBlock) (by decide) (fun c hc p hp => ?_) s.view.size b
    hvalid.2 ?_ hb
  · obtain ⟨hp, hchild⟩ := hg.parent hp
    by_cases hge : startBlock ≤ p
    · exact .inl hge
    · have hentry : p = entryBlock := by
        have := ((hg.valid p).mp hp).1
        unfold startBlock at hge
        unfold entryBlock
        lia
      have hvalid := (hg.edge hchild).1
      rw [hentry, hgate] at hchild
      cases mem_singleton.mp hchild
      rw [hg.doms_eq hvalid]
      exact .inr (.inr (mem_cons_self ..))
  · unfold entryBlock at hne
    unfold startBlock
    lia

/-- A repair of a loop gives no variable the value zero: what it merges was assigned in the loop,
and has a version in front of it. -/
theorem Repairable.changes_anchored {header pre : BlockId} {names : List String} {W : Want → Prop}
    (h : Repairable floor header s)
    (hvars : ∀ j, header ≤ j → ∀ name ∈ s.view.joinVars j, name ∈ names)
    (hanchored : ∀ name ∈ names, s.Anchored header pre name)
    (hdoms : ∀ j, header ≤ j → ∀ p ∈ s.view.parents j, ∀ d ∈ s.dominatorsOf pre,
      d ∈ s.dominatorsOf p)
    (hmark : ∀ j, header ≤ j → ∀ name ∈ names, W (.mark j name)) :
    Changes header W s (s.repairLoop header) := by
  let W₀ : Want → Prop
    | .zero _ p name => s.Anchored header p name
    | .mark j name => W (.mark j name)
    | _ => False
  have hW : Wanted header W₀ s := by
    refine ⟨h.root, fun j name hname hj p hp hne => ?_,
      fun j name hname hj => hmark j hj name (hvars j hj name hname), fun _ _ hw => hw⟩
    exact (hanchored name (hvars j hj name hname)).mono
      (hdoms j hj p ((mem_joinParents hp).resolve_left hne))
  exact Changes.quiet (h.changes hW) h.laid.timelines (fun _ _ _ hw => hw) (fun _ _ hw => hw)
    fun _ _ hw => hw.elim

end

end SingleAssignment.Builder
