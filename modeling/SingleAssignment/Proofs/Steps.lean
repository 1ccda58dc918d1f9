import Mathlib.Data.List.Basic
import SingleAssignment.Proofs.Mending
import SingleAssignment.Proofs.Outcome
import SingleAssignment.Proofs.Outline
import SingleAssignment.Proofs.Targets

/-!
# The steps of lowering

Lowering takes steps of few kinds (`Step`): a change of code, an effect at the end of a block, an
empty instruction in a block that has none, a block or an edge, and the begin or the end of an `if`
or a loop. A step tells the effect that it makes, and so does a sequence of steps (`Steps`): the
effects of a block in the end are those that it had in the beginning and then those that were told
(`Steps.logged`). Nothing else makes, moves or takes away an effect.
-/

namespace SingleAssignment.Builder

open Code List State
open Option (bind_some isSome_iff_exists)

/-- What blocks and edges leave alone in a block. -/
def Block.core (blk : Block) : (List Slot × VersionTable) × Option InstId × List BlockId × Names :=
  ((blk.timeline, blk.table), blk.placeholder, blk.dominators, blk.joinVars)

/-- One step of lowering in the blocks from `F` on, with the effect that it makes. -/
inductive Step (F : BlockId) (W : Want → Prop) : List (BlockId × InstId × Opcode) →
    State → State → Prop
  /-- Code is changed. -/
  | change {s t : State} (h : Change F W s t) : Step F W [] s t
  /-- An effect is put at the end of a block. -/
  | effect {s : State} {b : BlockId} {op : Opcode} {x y : Value} (hF : F ≤ b)
      (hb : (s.block? b).isSome) (hentry : b ≠ entryBlock) (hop : op.hasEffect = true)
      (hopen : s.Open b) :
      Step F W [(b, (s.emitEffect b op x y).1.id, op)] s (s.emitEffect b op x y).2
  /-- A block without an active instruction gets an empty one. -/
  | blank {s : State} {b : BlockId} (hb : (s.block? b).isSome) (hentry : b ≠ entryBlock)
      (hnone : s.firstActive? b = none) : Step F W [] s (s.entryPoint b).2
  /-- A target of a branch changes. -/
  | aimed {s : State} {id : InstId} {i : Instruction} {side : Side} {o : Operand}
      (hi : s.inst? id = some i) (hside : i.isTarget side = true) :
      Step F W [] s (s.modifyInst id (·.withSlot side o))
  /-- Blocks and edges are made. -/
  | outline {s t : State} (hinsts : t.insts = s.insts) (hversions : t.versions = s.versions)
      (hwarned : t.diagnostics = s.diagnostics)
      (hold : ∀ {b blk}, s.block? b = some blk → ∃ blk', t.block? b = some blk' ∧
        blk'.core = blk.core)
      (hnew : ∀ {b blk}, s.block? b = none → t.block? b = some blk →
        blk.timeline = [] ∧ blk.placeholder = none ∧ blk.joinVars = ∅ ∧ blk.table = [])
      (hcontexts : t.contexts = s.contexts) : Step F W [] s t
  /-- An `if` or a loop begins. -/
  | opened {s : State} {kind : JoinKind} (hwant : W .scope) : Step F W [] s (s.openJoin kind)
  /-- The innermost `if` or loop ends. -/
  | closed {s : State} {c : JoinContext} {rest : List JoinContext} (hwant : W .scope)
      (hcontexts : s.contexts = c :: rest) : Step F W [] s { s with contexts := rest }

/-- A sequence of steps with the effects that they make. -/
inductive Steps (F : BlockId) (W : Want → Prop) : List (BlockId × InstId × Opcode) →
    State → State → Prop
  | refl {s : State} : Steps F W [] s s
  | tail {l l' : List (BlockId × InstId × Opcode)} {s t u : State} (h : Steps F W l s t)
      (h' : Step F W l' t u) : Steps F W (l ++ l') s u

section

variable {F F' : BlockId} {W W' : Want → Prop} {s t u : State}
    {l l' : List (BlockId × InstId × Opcode)}

theorem Change.mono (h : Change F W s t) (hF : F' ≤ F) (hW : ∀ a, W a → W' a) :
    Change F' W' s t := by
  cases h with
  | place hb hempty hop hF' hput => exact .place hb hempty hop (hF'.imp_left (Int.le_trans hF)) hput
  | phi hb hop hF' => exact .phi hb hop (Int.le_trans hF hF')
  | mark hb hF' hnumber hwant hissued hput hrec =>
    exact .mark hb (Int.le_trans hF hF') hnumber (hW _ hwant) hissued hput hrec
  | zero hentry hstart hwant hroot hnone hconst =>
    exact .zero hentry hstart (hW _ hwant) hroot hnone hconst
  | inst hid hop hblock hblank hact hF' hdeps =>
    refine .inst hid hop hblock hblank hact (fun i hi => (hF' i hi).imp_left (Int.le_trans hF))
      fun i hi => ⟨(hdeps i hi).1, fun ref href => ?_⟩
    exact ((hdeps i hi).2 ref href).imp_right (Or.imp_left (Int.le_trans hF))
  | version href hissued hF' =>
    exact .version href hissued fun ver hver => (hF' ver hver).imp_left (Int.le_trans hF)
  | joined hwant => exact .joined (hW _ hwant)
  | touched => exact .touched
  | books hinsts hversions hblocks hsize hwarned hcontexts =>
    exact .books hinsts hversions hblocks hsize hwarned hcontexts

/-- From the block of a branch on, a new target is a change like others. -/
theorem Change.aim {id : InstId} {i : Instruction} {side : Side} (hi : s.inst? id = some i)
    (hside : i.isTarget side = true) (o : Operand) :
    Change i.block W s (s.modifyInst id (·.withSlot side o)) := by
  refine .inst (fun _ => ?_) (fun _ => (withSlot_keeps ..).2.2.2) (fun _ => (withSlot_keeps ..).2.1)
    ?_ (fun _ _ _ => (withSlot_keeps ..).2.2.1) (fun j hj => .inl ?_) fun j _ => ?_
  · cases side <;> rfl
  · intro j hj he
    cases hi.symm.trans hj
    simp [Instruction.isTarget, Opcode.isBranch, Opcode.isConditional, he] at hside
  · cases hi.symm.trans hj
    exact Int.le_refl _
  · cases side <;> exact .same _ j

theorem Step.mono (h : Step F W l s t) (hF : F' ≤ F) (hW : ∀ a, W a → W' a) : Step F' W' l s t := by
  cases h with
  | change h => exact .change (h.mono hF hW)
  | effect hF' hb hentry hop hopen => exact .effect (Int.le_trans hF hF') hb hentry hop hopen
  | blank hb hentry hnone => exact .blank hb hentry hnone
  | aimed hi hside => exact .aimed hi hside
  | outline hinsts hversions hwarned hold hnew hcontexts =>
    exact .outline hinsts hversions hwarned hold hnew hcontexts
  | opened hwant => exact .opened (hW _ hwant)
  | closed hwant hcontexts => exact .closed (hW _ hwant) hcontexts

namespace Steps

theorem step (h : Step F W l s t) : Steps F W l s t := by
  simpa using Steps.refl.tail h

theorem of_changes (h : Changes F W s t) : Steps F W [] s t := by
  induction h with
  | refl => exact .refl
  | tail _ hstep ih => exact ih.tail (.change hstep)

theorem trans (h : Steps F W l s t) (h' : Steps F W l' t u) : Steps F W (l ++ l') s u := by
  induction h' with
  | refl => rwa [append_nil]
  | tail _ hstep ih =>
    rw [← append_assoc]
    exact (ih h).tail hstep

theorem mono (h : Steps F W l s t) (hF : F' ≤ F) (hW : ∀ a, W a → W' a) : Steps F' W' l s t := by
  induction h with
  | refl => exact .refl
  | tail _ hstep ih => exact ih.tail (hstep.mono hF hW)

/-- Steps without an effect come behind. -/
theorem andThen (h : Steps F W l s t) (h' : Steps F W [] t u) : Steps F W l s u := by
  simpa using h.trans h'

end Steps

end

/-! ## What steps tell -/

/-- What is known of the effects behind steps that tell `l`. -/
structure Logged (l : List (BlockId × InstId × Opcode)) (s t : State) : Prop where
  timelines : Timelines t
  acts : ∀ b, t.acts b = s.acts b ++ (l.filter (·.1 = b)).map (·.2)
  tidy : s.Tidy → t.Tidy
  opened : ∀ {b}, s.Open b → (∀ a ∈ l, a.1 = b → a.2.2.isTerminator = false) → t.Open b
  block : ∀ {b}, (s.block? b).isSome → (t.block? b).isSome
  persists : Persists s t

namespace Logged

variable {s t u : State} {b : BlockId} {l l' : List (BlockId × InstId × Opcode)}

open State

theorem of_calm (h : Calm s t) (hp : Persists s t) : Logged [] s t :=
  ⟨h.timelines, fun b => by rw [h.acts]; simp, h.tidy, fun hb _ => h.opened hb, h.isSome_block, hp⟩

theorem trans (h : Logged l s t) (h' : Logged l' t u) : Logged (l ++ l') s u := by
  refine ⟨h'.timelines, fun b => ?_, fun hs => h'.tidy (h.tidy hs), fun hb hl => ?_,
    fun hb => h'.block (h.block hb), h.persists.trans h'.persists⟩
  · rw [h'.acts, h.acts, filter_append, map_append, append_assoc]
  · exact h'.opened (h.opened hb fun a ha => hl a (mem_append_left _ ha))
      fun a ha => hl a (mem_append_right _ ha)

theorem putAt_length (time : List Slot) (id : InstId) :
    putAt time time.length id = time.filter (· ≠ .inst id) ++ [.inst id] := by
  simp [putAt]

/-- An effect comes last in its block. -/
theorem effect {op : Opcode} (x y : Value) (hs : Timelines s) (hb : (s.block? b).isSome)
    (hentry : b ≠ entryBlock) (hop : op.hasEffect = true) (hopen : s.Open b) :
    Logged [(b, (s.emitEffect b op x y).1.id, op)] s (s.emitEffect b op x y).2 := by
  let d : Draft := { op := op, x := x.operand, y := y.operand, srcX := x.src, srcY := y.src }
  have hempty : d.op ≠ .empty := by
    intro he
    rw [show op = .empty from he] at hop
    cases hop
  obtain ⟨blk, hblk⟩ := isSome_iff_exists.mp hb
  have hputs : Puts s b d (s.endOf b) (s.place b d (s.endOf b)) := hs.puts_place hblk hempty
  obtain ⟨-, hview, ht⟩ : _ ∧ (s.place b d (s.endOf b)).2.view = _ ∧ _ := hs.place hblk hempty
  show Logged [(b, (s.place b d (s.endOf b)).1, op)] s (s.place b d (s.endOf b)).2
  generalize s.place b d (s.endOf b) = r at *
  obtain ⟨i, hi, -, -, hactive, hinst⟩ := hputs.inst
  have htime : ∀ b', r.2.timelineOf b' =
      if b' = b then (s.timelineOf b).filter (· ≠ .inst r.1) ++ [.inst r.1] else
      s.timelineOf b' := by
    intro b'
    rw [hputs.time, endOf, putAt_length]
  have hnew : r.2.act? (.inst r.1) = some (r.1, op) := by
    rw [act?, hinst, if_pos rfl, bind_some, hi, hactive]
    simp [d, hop]
  have hold : s.act? (.inst r.1) = none := act?_eq_none fun i₀ hi₀ => by
    rw [(hputs.old i₀ hi₀).1]
    rfl
  have hact : ∀ y, y ≠ .inst r.1 → r.2.act? y = s.act? y := by
    intro y hy
    cases y with
    | mark v => rfl
    | inst id => simp only [act?, hputs.inst?_of_ne fun he => hy (he ▸ rfl)]
  -- no other block has the instruction, also where it was an empty one before
  have hother : ∀ b', b' ≠ b → ∀ y ∈ s.timelineOf b', r.2.act? y = s.act? y := by
    refine fun b' hb' y hy => hact y ?_
    rintro rfl
    obtain ⟨i₀, hi₀, hb₀⟩ := hs.owner hy
    exact hb' (hb₀.symm.trans (hputs.old i₀ hi₀).2)
  have hopened : ∀ y ∈ (s.timelineOf b).filter (· ≠ .inst r.1), r.2.isEnd y = false := by
    intro y hy
    obtain ⟨hy, hne⟩ := mem_filter.mp hy
    rw [isEnd, hact y (of_decide_eq_true hne)]
    exact hopen y hy
  refine ⟨ht, fun b' => ?_, fun hs => ⟨fun b' => ?_, fun y hy => ?_⟩, fun {b'} hb' hl y hy => ?_,
    fun {b'} hb' => ?_, .of_puts hputs⟩
  · rw [State.acts, State.acts, htime]
    by_cases he : b' = b
    · subst he
      rw [if_pos rfl, filterMap_append, filterMap_cons, hnew, filterMap_nil,
        filterMap_congr fun y hy => hact y (of_decide_eq_true (mem_filter.mp hy).2),
        Puts.filterMap_filter_ne hold]
      simp
    · rw [if_neg he, filterMap_congr (hother b' he)]
      simp [Ne.symm he]
  · rw [htime]
    by_cases he : b' = b
    · rw [if_pos he]
      refine pairwise_append.mpr ⟨List.Pairwise.imp_of_mem (fun hy _ _ hend => ?_)
        ((hs.last b).sublist filter_sublist), pairwise_singleton .., fun y hy _ _ hend => ?_⟩
      all_goals
        rw [hopened _ hy] at hend
        cases hend
    · rw [if_neg he]
      refine List.Pairwise.imp_of_mem (fun hy _ hyz hend => hyz ?_) (hs.last b')
      rwa [isEnd, hother b' he _ hy] at hend
  · rw [htime, if_neg (Ne.symm hentry)] at hy
    rw [isEnd, hother _ (Ne.symm hentry) y hy]
    exact hs.entry y hy
  · rw [htime] at hy
    by_cases he : b' = b
    · rw [if_pos he] at hy
      rcases mem_append.mp hy with hy | hy
      · exact hopened y hy
      · cases mem_singleton.mp hy
        rw [isEnd, hnew]
        exact hl _ (mem_singleton_self _) he.symm
    · rw [if_neg he] at hy
      rw [isEnd, hother b' he y hy]
      exact hb' y hy
  · have hgraph : r.2.view.graph b' = s.view.graph b' := by
      rw [hview]
      rfl
    refine isSome_block ?_
    rw [hgraph]
    exact isSome_view_graph.mpr (isSome_iff_exists.mp hb')

theorem open_of_firstActive? (h : s.firstActive? b = none) : s.Open b := by
  intro x hx
  cases x with
  | mark v => rfl
  | inst id =>
    have hlive := find?_eq_none.mp h id (mem_filterMap.mpr ⟨_, hx, rfl⟩)
    cases hi : s.inst? id with
    | none => simp [isEnd, act?, hi]
    | some i =>
      have hinactive : i.active = false := by simpa [isLive, hi] using hlive
      simp [isEnd, act?, hi, hinactive]

/-- An empty instruction is no effect, and it is put where nothing has ended. -/
theorem blank (hs : Timelines s) (hb : (s.block? b).isSome) (hnone : s.firstActive? b = none) :
    Calm s (s.entryPoint b).2 ∧ Persists s (s.entryPoint b).2 := by
  obtain ⟨blk, hblk⟩ := isSome_iff_exists.mp hb
  obtain ⟨hview, ht, -, -⟩ := hs.entryPoint hblk
  have hputs : Puts s b { op := .empty } (s.endOf b) (s.insertNew b { op := .empty } (s.endOf b)) :=
    hs.puts_insertNew hblk
  have hplaced : Calm s (s.insertNew b { op := .empty } (s.endOf b)).2 :=
    .of_puts hputs (hs.of_insertNew { op := .empty } (s.endOf b) hblk fun _ => ⟨rfl, rfl⟩)
      ((congrArg View.size (Timelines.insertEmpty hblk)).trans rfl)
      ((congrArg View.graph (Timelines.insertEmpty hblk)).trans rfl) rfl
      fun _ x hx => open_of_firstActive? hnone x (mem_of_mem_take hx)
  have hentry : (s.entryPoint b).2 = (s.insertNew b { op := .empty } (s.endOf b)).2.modifyBlock b
      fun blk => { blk with placeholder := some (s.insertNew b { op := .empty }
      (s.endOf b)).1 } := by
    unfold State.entryPoint
    rw [hnone]
    dsimp only
    rw [Timelines.place_empty]
  generalize s.insertNew b { op := .empty } (s.endOf b) = r at *
  rw [hentry] at ht ⊢
  generalize hf : (fun blk : Block => { blk with placeholder := some r.1 }) = f at *
  have hmark : Calm r.2 (r.2.modifyBlock b f) := by
    refine .of_same ht (size_modifyBlock r.2 b f) (funext fun b' => ?_) (fun b' => ?_) fun id => ?_
    · exact map_block?_modifyBlock Block.shape (fun _ => by rw [← hf]; rfl) b'
    · exact congrArg (Option.getD · []) (map_block?_modifyBlock (·.timeline) (fun _ => by rw [← hf])
        b')
    · rw [inst?_modifyBlock]
  exact ⟨hplaced.trans hmark, (Persists.of_puts hputs).trans
    (.of_eq (inst?_modifyBlock r.2 b f) (versions_modifyBlock r.2 b f))⟩

/-- Blocks and edges are no effects. -/
theorem outline (hs : Timelines s) (hinsts : t.insts = s.insts)
    (hversions : t.versions = s.versions) (hold : ∀ {b blk}, s.block? b = some blk → ∃ blk',
      t.block? b = some blk' ∧ blk'.core = blk.core)
    (hnew : ∀ {b blk}, s.block? b = none → t.block? b = some blk →
      blk.timeline = [] ∧ blk.placeholder = none ∧ blk.joinVars = ∅ ∧ blk.table = []) :
        Logged [] s t := by
  have hinst : ∀ id, t.inst? id = s.inst? id := fun id => by rw [inst?, inst?, hinsts]
  have hread : ∀ {α : Type} (f : Block → List α), (∀ blk blk' : Block, blk'.core = blk.core →
    f blk' = f blk) → (∀ blk : Block, blk.timeline = [] → blk.table = [] → f blk = []) →
      ∀ b, ((t.block? b).map f).getD [] = ((s.block? b).map f).getD [] := by
    intro α f hf hempty b
    cases hb : s.block? b with
    | none =>
      cases hb' : t.block? b with
      | none => rfl
      | some blk =>
        obtain ⟨htime, -, -, htable⟩ := hnew hb hb'
        exact hempty blk htime htable
    | some blk =>
      obtain ⟨blk', hb', hcore⟩ := hold hb
      rw [hb']
      exact hf blk blk' hcore
  have htime : ∀ b, t.timelineOf b = s.timelineOf b :=
    hread (·.timeline) (fun _ _ hcore => congrArg (·.1.1) hcore) fun _ htime _ => htime
  have htable : ∀ b, t.tableOf b = s.tableOf b :=
    hread (·.table) (fun _ _ hcore => congrArg (·.1.2) hcore) fun _ _ htable => htable
  have hact : t.act? = s.act? := act?_congr fun id => by rw [hinst]
  have hend := isEnd_congr hact
  refine ⟨?_, fun b => ?_, fun hs => ⟨fun b => ?_, fun x hx => ?_⟩,
    fun hb _ x hx => ?_, fun hb => ?_, .of_eq hinst hversions⟩
  · refine hs.congr (fun id => by rw [hinst]) (fun id i hi => hs.blank ((hinst id).symm.trans hi))
      htime htable (fun v => by rw [hversions]) fun b blk p hb hp => .inr ?_
    cases hb₀ : s.block? b with
    | none =>
      rw [(hnew hb₀ hb).2.1] at hp
      cases hp
    | some blk₀ =>
      obtain ⟨blk', hb', hcore⟩ := hold hb₀
      cases hb.symm.trans hb'
      exact ⟨blk₀, rfl, (congrArg (·.2.1) hcore).symm.trans hp⟩
  · rw [State.acts, State.acts, htime, hact]
    simp
  · rw [htime, hend]
    exact hs.last b
  · rw [hend]
    exact hs.entry x (htime _ ▸ hx)
  · rw [hend]
    exact hb x (htime _ ▸ hx)
  · obtain ⟨blk, hb⟩ := isSome_iff_exists.mp hb
    obtain ⟨blk', hb', -⟩ := hold hb
    rw [hb']
    rfl

theorem of_blocks (hs : Timelines s) (hinsts : t.insts = s.insts)
    (hversions : t.versions = s.versions) (hblocks : t.blocks = s.blocks) : Logged [] s t := by
  have hblock : ∀ b, t.block? b = s.block? b := fun b => by rw [State.block?, State.block?, hblocks]
  refine outline hs hinsts hversions (fun {b blk} hb => ⟨blk, (hblock b).trans hb, rfl⟩)
    fun hb hb' => ?_
  rw [hblock, hb] at hb'
  cases hb'

end Logged

section

variable {F : BlockId} {W : Want → Prop} {s t : State} {l : List (BlockId × InstId × Opcode)}

theorem Step.logged (h : Step F W l s t) (hs : Timelines s) : Logged l s t := by
  cases h with
  | change h => exact .of_calm (h.calm hs) (h.persists hs)
  | effect hF hb hentry hop hopen => exact .effect _ _ hs hb hentry hop hopen
  | blank hb hentry hnone =>
    obtain ⟨hcalm, hpersists⟩ := Logged.blank hs hb hnone
    exact .of_calm hcalm hpersists
  | @aimed _ _ _ _ o hi hside =>
    have h := Change.aim (W := W) hi hside o
    exact .of_calm (h.calm hs) (h.persists hs)
  | outline hinsts hversions hwarned hold hnew hcontexts =>
    exact .outline hs hinsts hversions hold hnew
  | opened hwant => exact .of_blocks hs rfl rfl rfl
  | closed hwant hcontexts => exact .of_blocks hs rfl rfl rfl

theorem Step.versions_of_effect {b : BlockId} {op : Opcode} {x y : Value} (hs : Timelines s)
    (hb : (s.block? b).isSome) (hop : op.hasEffect = true) : (s.emitEffect b op x y).2.versions =
    s.versions := by
  obtain ⟨blk, hb⟩ := isSome_iff_exists.mp hb
  have hempty : op ≠ .empty := by
    rintro rfl
    cases hop
  exact (hs.puts_place (d := ⟨op, x.operand, y.operand, x.src, y.src⟩) hb hempty).versions

theorem Step.versions_of_blank {b : BlockId} (hnone : s.firstActive? b = none) :
    (s.entryPoint b).2.versions = s.versions := by
  rw [entryPoint_of_none hnone, versions_modifyBlock]
  exact versions_modifyBlock ..

/-- Versions name issued instructions only. -/
theorem Step.allIssued (h : Step F W l s t) (hs : Timelines s) (ha : s.AllIssued) :
    t.AllIssued := by
  have hp := (h.logged hs).persists
  cases h with
  | change h => exact h.allIssued hs ha
  | effect hF hb hentry hop hopen => exact hp.allIssued ha (versions_of_effect hs hb hop)
  | blank hb hentry hnone => exact hp.allIssued ha (versions_of_blank hnone)
  | aimed hi hside => exact hp.allIssued ha (versions_modifyInst ..)
  | outline hinsts hversions hwarned hold hnew hcontexts => exact hp.allIssued ha hversions
  | opened hwant => exact hp.allIssued ha rfl
  | closed hwant hcontexts => exact hp.allIssued ha rfl

/-- The effects in the end are those in the beginning and then those that were told. -/
theorem Steps.logged (h : Steps F W l s t) (hs : Timelines s) : Logged l s t := by
  induction h with
  | refl => exact .of_calm (.refl hs) (.of_eq (fun _ => rfl) rfl)
  | tail _ hstep ih => exact (ih hs).trans (hstep.logged (ih hs).timelines)

/-- A block keeps its dominators. -/
theorem Step.dominatorsOf (h : Step F W l s t) (hs : Timelines s) {b : BlockId}
    (hb : (s.block? b).isSome) : t.dominatorsOf b = s.dominatorsOf b := by
  cases h with
  | change h => exact dominatorsOf_congr (h.calm hs).graph b
  | @effect _ b' op x y hF hb' hentry hop hopen =>
    obtain ⟨blk, hb'⟩ := isSome_iff_exists.mp hb'
    have hempty : op ≠ .empty := by
      rintro rfl
      cases hop
    exact dominatorsOf_congr ((congrArg View.graph
      (hs.place (d := ⟨op, x.operand, y.operand, x.src, y.src⟩) hb' hempty).2.1).trans rfl) b
  | blank hb' hentry hnone =>
    obtain ⟨blk, hb'⟩ := isSome_iff_exists.mp hb'
    exact dominatorsOf_congr (congrArg View.graph (hs.entryPoint hb').1) b
  | aimed hi hside => exact dominatorsOf_congr ((Change.aim (W := W) hi hside _).calm hs).graph b
  | outline hinsts hversions hwarned hold hnew hcontexts =>
    obtain ⟨blk, hb⟩ := isSome_iff_exists.mp hb
    obtain ⟨blk', hb', hcore⟩ := hold hb
    rw [State.dominatorsOf, State.dominatorsOf, hb, hb']
    exact congrArg (·.2.2.1) hcore
  | opened hwant => rfl
  | closed hwant hcontexts => rfl

theorem Steps.dominatorsOf (h : Steps F W l s t) (hs : Timelines s) {b : BlockId}
    (hb : (s.block? b).isSome) : t.dominatorsOf b = s.dominatorsOf b := by
  induction h with
  | refl => rfl
  | tail h h' ih =>
    exact (h'.dominatorsOf (h.logged hs).timelines ((h.logged hs).block hb)).trans (ih hs hb)

theorem Steps.rooted (h : Steps F W l s t) (hs : Timelines s) {b : BlockId}
    (hb : (s.view.graph b).isSome) (hr : s.Rooted b) : t.Rooted b :=
  fun hne => h.dominatorsOf hs (isSome_block hb) ▸ hr hne

theorem Steps.allIssued (h : Steps F W l s t) (hs : Timelines s) (ha : s.AllIssued) :
    t.AllIssued := by
  induction h with
  | refl => exact ha
  | tail hsteps hstep ih => exact hstep.allIssued (hsteps.logged hs).timelines (ih hs ha)

end

/-! ## Operations -/

namespace Steps

variable {F b : BlockId} {W : Want → Prop} {s t : State}

open State

/-- Nothing but what lists and books hold is different. -/
theorem of_arenas (hinsts : t.insts = s.insts) (hversions : t.versions = s.versions)
    (hblocks : t.blocks = s.blocks) (hwarned : t.diagnostics = s.diagnostics)
    (hcontexts : t.contexts = s.contexts) : Steps F W [] s t :=
  of_changes (.of_arenas hinsts hversions hblocks hwarned hcontexts)

theorem link (p c : BlockId) : Steps F W [] s (s.link p c) := by
  refine .step (.outline ?_ ?_ ?_ (fun {b blk} hb => ?_) (fun {b blk} hb hb' => ?_) ?_)
  · unfold State.link modifyBlock
    split <;> split <;> rfl
  · unfold State.link
    rw [versions_modifyBlock, versions_modifyBlock]
  · unfold State.link modifyBlock
    split <;> split <;> rfl
  · refine ⟨_, by rw [block?_link, hb]; rfl, ?_⟩
    obtain ⟨htime, -, hvars, hholder, -⟩ := linked_same p c b blk
    rw [Block.core, htime, table_linked, hholder, (View.linked_rest p c b blk).2.1, hvars]
    rfl
  · rw [block?_link, hb] at hb'
    cases hb'
  · unfold State.link modifyBlock
    split <;> split <;> rfl

theorem addBlock (d : BlockDraft) : Steps F W [] s (s.addBlock d).2 := by
  let blk : Block := { id := s.blocks.size, kind := d.kind, join := d.join,
                       dominators := s.blocks.size :: d.dominators }
  have hpush : Steps F W [] s { s with blocks := s.blocks.push blk } := by
    refine .step (.outline rfl rfl rfl (fun {b blk'} hb => ⟨blk', ?_, rfl⟩)
      (fun {b blk'} hb hb' => ?_) rfl)
    · rw [block?_push, if_neg]
      · exact hb
      · rintro rfl
        rw [block?_size] at hb
        cases hb
    · rw [block?_push] at hb'
      split at hb'
      · cases hb'
        exact ⟨rfl, rfl, rfl, rfl⟩
      · rw [hb] at hb'
        cases hb'
  have hlinks : ∀ (c : BlockId) (ps : List BlockId) (t : State),
      Steps F W [] s t → Steps F W [] s (ps.foldl (fun s p => s.link p c) t) := by
    intro c ps
    induction ps with
    | nil => exact fun _ h => h
    | cons p ps ih => exact fun t h => ih _ (h.andThen (link p c))
  exact hlinks _ _ _ hpush

theorem openJoin (hwant : W .scope) (kind : JoinKind) : Steps F W [] s (s.openJoin kind) :=
  .step (.opened hwant)

theorem closeJoin (hwant : W .scope) {c : JoinContext} {rest : List JoinContext}
    (h : s.contexts = c :: rest) : Steps F W [] s { s with contexts := rest } :=
  .step (.closed hwant h)

/-- An effect at the end of a block that code may be added to. -/
theorem effect (h : Ongoing s b) (hb : startBlock ≤ b) {op : Opcode} (hop : op.hasEffect = true)
    (x y : Value) :
    Steps b W [(b, (s.emitEffect b op x y).1.id, op)] s (s.emitEffect b op x y).2 := by
  refine .step (.effect (Int.le_refl b) h.block ?_ hop h.opened)
  rintro rfl
  exact absurd hb (by decide)

theorem forgetLoads (name : String) : Steps F W [] s (s.forgetLoads b name) := by
  have hblock : ∀ b', (s.forgetLoads b name).block? b' = (s.block? b').map fun blk =>
      if blk.dominators.contains b then
        { blk with entries := blk.entries.filter fun e => e.op != .load || e.tag.array != name }
      else blk := by
    intro b'
    unfold State.forgetLoads block?
    split
    · exact Array.getElem?_map
    · rfl
  refine of_changes (.single (.books rfl rfl (fun b' => ?_) (by simp [State.forgetLoads]) rfl rfl))
  rw [hblock, Option.map_map]
  congr 1
  funext blk
  dsimp only [Function.comp_apply]
  split <;> rfl

theorem storeAt (h : Ongoing s b) (hb : startBlock ≤ b) (name : String) (epoch : Int)
    (v addr : Value) :
    Steps b W [(b, (s.emitEffect b .store v addr).1.id, .store)] s
      (s.storeAt b name epoch v addr) := by
  have hstore : Steps b W [(b, (s.emitEffect b .store v addr).1.id, .store)] s
      (s.emitEffect b .store v addr).2 := effect h hb rfl v addr
  obtain ⟨blk, hblk⟩ := isSome_iff_exists.mp h.block
  obtain ⟨i, hop, -, hblock, -, hinst⟩ := (@Timelines.puts_place s b blk
    ⟨.store, v.operand, addr.operand, v.src, addr.src⟩ (s.endOf b) h.timelines hblk
    (by intro he; cases he)).inst
  have hi : (s.emitEffect b .store v addr).2.inst? (s.emitEffect b .store v addr).1.id = some i :=
    (hinst _).trans (if_pos rfl)
  have htag : Steps b W [] (s.emitEffect b .store v addr).2
    ((s.emitEffect b .store v addr).2.modifyInst (s.emitEffect b .store v addr).1.id
    fun i => { i with memory := some ⟨name, epoch⟩ }) := by
    refine .step (.change (.inst (fun _ => rfl) (fun _ => rfl) (fun _ => rfl) ?_
      (fun _ _ _ => rfl) ?_ fun i _ => .same b i))
    all_goals
      intro j hj
      cases hi.symm.trans hj
    · intro he
      rw [hop] at he
      cases he
    · exact .inl (hblock ▸ Int.le_refl b)
  have hbump : ∀ t : State, Steps b W [] t (t.bumpEpoch name) :=
    fun t => of_arenas rfl rfl rfl rfl rfl
  exact ((hstore.andThen htag).andThen (hbump _)).andThen (forgetLoads name)

theorem defer {id : InstId} {i : Instruction} {side : Side} (hi : s.inst? id = some i)
    (hside : i.isTarget side = true) (target : BlockId) : Steps F W [] s (s.defer id side target) :=
  (Steps.step (.aimed hi hside)).andThen (of_arenas rfl rfl rfl rfl rfl)

theorem resolveBranch (hs : Timelines s) {d : Deferral} (hb : (s.block? d.target).isSome)
    (hne : d.target ≠ entryBlock) {i : Instruction} (hi : s.inst? d.inst = some i)
    (hside : i.isTarget d.side = true) : Steps F W [] s (s.resolveBranch d) := by
  obtain ⟨blk, hblk⟩ := isSome_iff_exists.mp hb
  have hentry : Steps F W [] s (s.entryPoint d.target).2 := by
    cases hfirst : s.firstActive? d.target with
    | some id =>
      rw [entryPoint_of_some hfirst]
      exact .refl
    | none => exact .step (.blank hb hne hfirst)
  obtain ⟨-, -, hinst, -⟩ := hs.entryPoint hblk
  exact (hentry.andThen (.step (.aimed (hinst _ _ hi) hside))).andThen
    (of_arenas rfl rfl rfl rfl rfl)

theorem resolveBranches (hs : Timelines s) (hd : Deferrals s) : Steps F W [] s s.resolveBranches :=
  (hs.resolveBranches_of (P := Steps F W [] s) hd .refl fun hs hb hne hi hside h =>
    h.andThen (resolveBranch hs hb hne hi hside)).1

end Steps

end SingleAssignment.Builder
