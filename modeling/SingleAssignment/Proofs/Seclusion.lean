import SingleAssignment.Proofs.Acceptance
import SingleAssignment.Proofs.Advance

/-!
# What the repair of a loop leaves alone

Closing a loop merges variables at its header and repairs the code behind it. Nothing of this
reaches a block that does not follow the header: its instructions stay as they are but for what they
record, its versions stay, and so does the order of its timeline (`outside_undisturbed`). Only
constants come to the end of the block in front of all code, and the version 0 of a variable to the
end of the first block with code.

A repair changes only what the blocks of the loop hold (`Change.undisturbed`), and these are all
that follow the header (`Cycles.spread`).
-/

namespace SingleAssignment.Builder

open Code List State

namespace State

/-- What may come late to a timeline: a constant in the block in front of all code, and version 0 of
a variable in the first block with code. -/
inductive Late (s : State) : BlockId → Slot → Prop
  | const {id : InstId} {i : Instruction} (hi : s.inst? id = some i) (hblock : i.block = entryBlock)
      (hop : i.op = .const) : Late s entryBlock (.inst id)
  | zero {v : VersionId} {ver : Version} (hver : s.versions[v]? = some ver)
      (hblock : ver.block = startBlock) (hnumber : ver.number = 0) : Late s startBlock (.mark v)

end State

/-- Nothing is different in the blocks of `P`: an instruction is the same but for what it records, a
version is the same, and a timeline goes on with what may come late at most. -/
structure Undisturbed (P : BlockId → Prop) (s t : State) : Prop where
  inst : ∀ {id : InstId} {i : Instruction}, s.inst? id = some i → P i.block →
    ∃ deps, t.inst? id = some { i with deps }
  version : ∀ {v : VersionId} {ver : Version}, s.versions[v]? = some ver → P ver.block →
    t.versions[v]? = some ver
  time : ∀ {b : BlockId}, P b → ∃ new, t.timelineOf b = s.timelineOf b ++ new ∧
    ∀ x ∈ new, t.Late b x

section

variable {P P' : BlockId → Prop} {F : BlockId} {W : Want → Prop} {s t u : State}
  {l : List (BlockId × InstId × Opcode)}

namespace Undisturbed

theorem of_same (hinst : ∀ id, t.inst? id = s.inst? id) (hversions : t.versions = s.versions)
    (htime : ∀ b, t.timelineOf b = s.timelineOf b) : Undisturbed P s t :=
  ⟨fun {id i} hi _ => ⟨i.deps, (hinst id).trans hi⟩, fun hver _ => hversions ▸ hver,
    fun {b} _ => ⟨[], by rw [htime, append_nil], fun x hx => by cases hx⟩⟩

theorem mono (h : Undisturbed P s t) (hP : ∀ b, P' b → P b) : Undisturbed P' s t :=
  ⟨fun hi hb => h.inst hi (hP _ hb), fun hver hb => h.version hver (hP _ hb),
    fun hb => h.time (hP _ hb)⟩

theorem late (h : Undisturbed P s t) {b : BlockId} {x : Slot} (hb : P b) (hx : s.Late b x) :
    t.Late b x := by
  cases hx with
  | const hi hblock hop =>
    obtain ⟨deps, hi'⟩ := h.inst hi (hblock ▸ hb)
    exact .const hi' hblock hop
  | zero hver hblock hnumber => exact .zero (h.version hver (hblock ▸ hb)) hblock hnumber

theorem trans (h : Undisturbed P s t) (h' : Undisturbed P t u) : Undisturbed P s u := by
  refine ⟨fun hi hb => ?_, fun hver hb => h'.version (h.version hver hb) hb, fun hb => ?_⟩
  · obtain ⟨deps, hi'⟩ := h.inst hi hb
    obtain ⟨deps', hi''⟩ := h'.inst hi' hb
    exact ⟨deps', hi''⟩
  · obtain ⟨new, hnew, hlate⟩ := h.time hb
    obtain ⟨new', hnew', hlate'⟩ := h'.time hb
    refine ⟨new ++ new', by rw [hnew', hnew, append_assoc], fun x hx => ?_⟩
    exact (mem_append.mp hx).elim (fun hx => h'.late hb (hlate x hx)) (hlate' x)

end Undisturbed

/-! ## What changes spare -/

section

variable {b : BlockId} {d : State.Draft} {pos : Nat} {r : InstId × State}

theorem Puts.undisturbed (h : Puts s b d pos r) (hF : F ≤ b) : Undisturbed (· < F) s r.2 := by
  refine ⟨fun {id i} hi hb => ⟨i.deps, ?_⟩, fun hver _ => h.versions ▸ hver,
    fun {b'} hb => ⟨[], ?_, fun x hx => by cases hx⟩⟩
  · rw [h.inst?_of_ne, hi]
    rintro rfl
    exact absurd hF (Int.not_le.mpr ((h.old i hi).2 ▸ hb))
  · rw [h.time, if_neg (Int.ne_of_lt (Int.lt_of_lt_of_le hb hF)), append_nil]

/-- A constant comes last in its block: nothing holds a place for it there. -/
theorem Puts.undisturbed_const (h : Puts s entryBlock d (s.endOf entryBlock) r) (hs : Timelines s)
    (hp : s.Paved) (hop : d.op = .const) : Undisturbed P s r.2 := by
  obtain ⟨i, hi, -, hblock, -, hinst⟩ := h.inst
  have hnew : s.inst? r.1 = none := by
    by_contra hsome
    obtain ⟨i₀, hi₀⟩ := Option.ne_none_iff_exists'.mp hsome
    exact hp hi₀ (h.old i₀ hi₀).2 (h.old i₀ hi₀).1
  refine ⟨fun {id j} hj _ => ⟨j.deps, ?_⟩, fun hver _ => h.versions ▸ hver, fun {b} _ => ?_⟩
  · rw [h.inst?_of_ne, hj]
    rintro rfl
    rw [hnew] at hj
    cases hj
  · by_cases hb : b = entryBlock
    · subst hb
      refine ⟨[.inst r.1], ?_, fun x hx => ?_⟩
      · rw [h.time, if_pos rfl, State.endOf, Logged.putAt_length, Timelines.filter_ne_of_not_mem]
        intro hmem
        obtain ⟨i₀, hi₀, -⟩ := hs.owner hmem
        rw [hnew] at hi₀
        cases hi₀
      · cases mem_singleton.mp hx
        exact .const ((hinst _).trans (if_pos rfl)) hblock (hi.trans hop)
    · exact ⟨[], by rw [h.time, if_neg hb, append_nil], fun x hx => by cases hx⟩

theorem Timelines.undisturbed_const (hs : Timelines s) (hp : s.Paved)
    (hentry : (s.block? entryBlock).isSome) (n : Int64) : Undisturbed P s (s.const n).2 := by
  obtain ⟨blk, hb⟩ := Option.isSome_iff_exists.mp hentry
  rcases Calm.const_cases s n with he | he
  · rw [he]
    exact .of_same (fun _ => rfl) rfl fun _ => rfl
  · rw [he]
    have hputs : Puts s entryBlock _ _ (s.place entryBlock { op := .const, x := .literal n }
      (s.endOf entryBlock)) :=
      hs.puts_place hb (by intro he; cases he)
    exact (hputs.undisturbed_const hs hp rfl).trans (.of_same (inst?_modifyBlock _ entryBlock _)
      (versions_modifyBlock _ entryBlock _) (timelineOf_modifyBlock_of_eq fun _ => rfl))

/-- A version that is marked behind all that is in the blocks of `P`, or comes late there. -/
theorem Undisturbed.addVersion {ver : Version} (hb : (s.block? ver.block).isSome)
    (htime : P ver.block → pos = s.endOf ver.block ∧ ver.block = startBlock ∧ ver.number = 0) :
    Undisturbed P s (s.addVersion ver pos).2 := by
  obtain ⟨blk, hblk⟩ := Option.isSome_iff_exists.mp hb
  refine ⟨fun {id i} hi _ => ⟨i.deps, (inst?_addVersion ..).trans hi⟩, fun {v a} hver _ => ?_,
    fun {b} hP => ?_⟩
  · rw [versions_addVersion, if_neg, hver]
    rintro rfl
    simp at hver
  · rw [timelineOf_addVersion hblk]
    by_cases he : b = ver.block
    · subst he
      obtain ⟨rfl, hstart, hnumber⟩ := htime hP
      refine ⟨[.mark s.versions.size], by simp [State.endOf], fun x hx => ?_⟩
      cases mem_singleton.mp hx
      rw [hstart]
      exact .zero ((versions_addVersion ..).trans (if_pos rfl)) hstart hnumber
    · exact ⟨[], by rw [if_neg he, append_nil], fun x hx => by cases hx⟩

end

theorem State.timelineOf_of_bare (h : ∀ b, (t.block? b).map Block.bare = (s.block? b).map
      Block.bare) (b : BlockId) :
    t.timelineOf b = s.timelineOf b := by
  have htime := congrArg (Option.map (·.timeline)) (h b)
  rw [Option.map_map, Option.map_map] at htime
  exact congrArg (Option.getD · []) htime

theorem Undisturbed.modifyInst {id : InstId} {f : Instruction → Instruction}
    (hF : ∀ i, s.inst? id = some i → F ≤ i.block ∨ f i = { i with deps := (f i).deps }) :
    Undisturbed (· < F) s (s.modifyInst id f) := by
  refine ⟨fun {id' i} hi hlt => ?_, fun hver _ => (versions_modifyInst ..).symm ▸ hver,
    fun {b} _ => ?_⟩
  · rw [inst?_modifyInst]
    by_cases he : id' = id
    · subst he
      have hsame := (hF i hi).resolve_left (Int.not_le.mpr hlt)
      exact ⟨(f i).deps, by rw [if_pos rfl, hi, ← hsame]; rfl⟩
    · exact ⟨i.deps, by rw [if_neg he, hi]⟩
  · exact ⟨[], by simp, fun x hx => by cases hx⟩

/-- A change in the blocks from `F` on leaves those in front of them alone. -/
theorem Change.undisturbed (h : Change F W s t) (hs : Timelines s) (hp : s.Paved) :
    Undisturbed (· < F) s t := by
  cases h with
  | place hb hempty hop hF hput =>
    obtain ⟨blk, hblk⟩ := Option.isSome_iff_exists.mp hb
    rcases hF with hF | ⟨rfl, hconst, rfl⟩
    · exact (hs.puts_place hblk hempty).undisturbed hF
    · exact (hs.puts_place hblk hempty).undisturbed_const hs hp hconst
  | phi hb hop hF =>
    obtain ⟨blk, hblk⟩ := Option.isSome_iff_exists.mp hb
    exact (hs.puts_insertNew hblk).undisturbed hF
  | mark hb hF => exact .addVersion hb fun hlt => absurd hF (Int.not_le.mpr hlt)
  | @zero _ name _ hentry hstart =>
    have hblock := (Calm.notedZero hs hentry name).isSome_block hstart
    have hnoted : Undisturbed (· < F) s (s.notedZero name) :=
      (hs.undisturbed_const hp hentry 0).trans (.modifyInst fun i _ => .inr (addDep_eq i _))
    exact (hnoted.trans (.addVersion hblock fun _ => ⟨rfl, rfl, rfl⟩)).trans
      (.of_same (fun _ => rfl) rfl fun _ => rfl)
  | inst hid hop hblock hblank hact hF hdeps => exact .modifyInst hF
  | @version v f href hissued hF =>
    refine ⟨fun {id i} hi _ => ⟨i.deps, hi⟩, fun {v' ver} hver hlt => ?_,
      fun {b} _ => ⟨[], (append_nil _).symm, fun x hx => by cases hx⟩⟩
    rw [State.modifyVersion, Array.getElem?_modify, if_neg, hver]
    rintro rfl
    exact absurd (hF ver hver).1 (Int.not_le.mpr hlt)
  | @joined j name =>
    exact .of_same (inst?_modifyBlock _ j _) (versions_modifyBlock ..)
      (timelineOf_modifyBlock_of_eq fun _ => rfl)
  | touched => exact .of_same (fun _ => rfl) rfl fun _ => rfl
  | books hinsts hversions hblocks =>
    exact .of_same (fun _ => by rw [State.inst?, State.inst?, hinsts]) hversions
      (timelineOf_of_bare hblocks)

theorem Changes.undisturbed (h : Changes F W s t) (hs : Timelines s) (hp : s.Paved) :
    Undisturbed (· < F) s t := by
  induction h with
  | refl => exact .of_same (fun _ => rfl) rfl fun _ => rfl
  | tail hsteps hstep ih =>
    have hbefore := Steps.of_changes hsteps
    exact ih.trans (hstep.undisturbed (hbefore.logged hs).timelines (hbefore.paved hs hp))

namespace Undisturbed

/-- An edge is nothing that is in a block. -/
theorem link (p c : BlockId) : Undisturbed P s (s.link p c) := by
  refine .of_same (fun id => ?_) ?_ fun b => ?_
  · rw [State.link, inst?_modifyBlock, inst?_modifyBlock]
  · rw [State.link, versions_modifyBlock, versions_modifyBlock]
  · rw [State.timelineOf, map_block?_link _ fun blk => (linked_same p c b blk).1]
    rfl

/-- A new block is empty. -/
theorem addBlock (d : BlockDraft) : Undisturbed P s (s.addBlock d).2 := by
  have hlinks : ∀ (c : BlockId) (ps : List BlockId) (t : State),
      Undisturbed P t (ps.foldl (fun s p => s.link p c) t) := by
    intro c ps
    induction ps with
    | nil => exact fun t => .of_same (fun _ => rfl) rfl fun _ => rfl
    | cons p ps ih => exact fun t => (link p c).trans (ih _)
  have hpush : ∀ blk : Block, blk.timeline = [] →
    Undisturbed P s { s with blocks := s.blocks.push blk } := by
    intro blk hblk
    refine .of_same (fun _ => rfl) rfl fun b => ?_
    rw [State.timelineOf, block?_push]
    split
    · rename_i he
      rw [he, State.timelineOf, block?_size, Option.map_some, hblk]
      rfl
    · rfl
  exact (hpush _ rfl).trans (hlinks _ _ _)

/-- A branch of the blocks from `F` on waits for its target. -/
theorem defer {id : InstId} {i : Instruction} {side : Side} (hs : Timelines s) (hp : s.Paved)
    (hi : s.inst? id = some i) (hside : i.isTarget side = true) (hF : F ≤ i.block)
    (target : BlockId) : Undisturbed (· < F) s (s.defer id side target) := by
  have haim : Change F (fun _ => True) s (s.modifyInst id (·.withSlot side (.pending target))) :=
    (Change.aim hi hside _).mono hF fun _ hw => hw
  exact (haim.undisturbed hs hp).trans (.of_same (fun _ => rfl) rfl fun _ => rfl)

end Undisturbed

end

/-! ## Blocks that do not follow a header -/

namespace State

/-- An edge leads from a block to another one. -/
def Leads (s : State) (p q : BlockId) : Prop :=
  ∃ blk, s.block? p = some blk ∧ q ∈ blk.children

/-- A block that no path of edges from the header leads to. -/
def Outside (s : State) (header b : BlockId) : Prop :=
  (s.block? b).isSome ∧ ¬ Relation.ReflTransGen s.Leads header b

theorem leads_iff {s : State} {p q : BlockId} : s.Leads p q ↔ q ∈ s.view.children p := by
  have hchildren : s.view.children p = ((s.block? p).map (·.children)).getD [] :=
    congrArg (Option.getD · []) (Option.map_map ..)
  rw [Leads, hchildren]
  cases s.block? p <;> simp

end State

end SingleAssignment.Builder

namespace SingleAssignment.Lowering

open Code Builder Source List

section

variable {F : BlockId} {w v w' : Walk} {branch bra : InstId} {ops : List Opcode} {ms : List Moment}

namespace Cycles

theorem isBranch (h : Cycles F w v w' branch bra ops) : ∃ i, w'.builder.inst? branch = some i ∧
    i.op.isBranch = true ∧ i.block = v.current := by
  obtain ⟨l, op, hop, hl⟩ := h.acts
  obtain ⟨i, hi, hiop, hblock, -⟩ :=
    h.steady.timelines.inst?_of_mem_acts (hl ▸ mem_append_right l (mem_singleton_self _))
  exact ⟨i, hi, by simp [Opcode.isBranch, hiop, hop], hblock⟩

/-- The view does not show that the jump back waits for the header. -/
theorem view_defer (h : Cycles F w v w' branch bra ops) :
    (w'.builder.defer bra .x v.current).view = w'.builder.view := by
  obtain ⟨l, hl⟩ := h.jump
  obtain ⟨i, hi, hop, -⟩ :=
    h.steady.timelines.inst?_of_mem_acts (hl ▸ mem_append_right l (mem_singleton_self _))
  exact State.view_defer hi (by simp [Instruction.isTarget, Opcode.isBranch, hop]) v.current

/-- A loop can be closed. -/
theorem ending (h : Cycles F w v w' branch bra ops)
    (hb : AtBottom F w { w' with builder := w'.builder.defer bra .x v.current } v.current ms) :
    ∃ exit t c s u, reconcileLoop v.current w'.current branch (w'.builder.defer bra .x v.current) =
    .ok exit t ∧ Completes F w v w' ⟨t.resolveBranches, exit⟩ branch bra ops c s u t := by
  have hbranch : IsBranch (w'.builder.defer bra .x v.current) branch := by
    obtain ⟨i, hi, hop, -⟩ := h.isBranch
    have hempty : i.op ≠ .empty := by
      intro he
      rw [he] at hop
      cases hop
    refine ⟨face i, ?_, hop⟩
    rw [h.view_defer]
    simp [State.view, hi, hempty]
  have hnever := never_reconcileLoop (f := ⟨v.current, branch⟩) hb hbranch
  cases hcall : reconcileLoop v.current w'.current branch (w'.builder.defer bra .x v.current) with
  | error e t => exact (hnever.error e t hcall).elim
  | ok exit t =>
    obtain ⟨s, c, u, hclose⟩ := closes_reconcileLoop (f := ⟨v.current, branch⟩) hb _ _ hcall
    exact ⟨exit, t, c, s, u, rfl, h.completes hb hclose⟩

end Cycles

/-- Closing a loop leaves the blocks in front of it alone. -/
theorem Completes.undisturbed_front {s u t : State} {c : JoinContext} {w'' : Walk}
    (h : Completes F w v w' w'' branch bra ops c s u t) :
    Undisturbed (· < v.current) (w'.builder.defer bra .x v.current) t := by
  have hst := h.cycles.steady
  obtain ⟨rest, hctx, hs⟩ := h.closes.popped
  have hsteps : Steps v.current (fun _ => True) [] w'.builder s := h.linked.steps trivial
  obtain ⟨i, hi, hside, ht⟩ := h.waits
  -- The branch that waits for the block behind the loop is the one of the header.
  have hblock : v.current ≤ i.block := by
    obtain ⟨i₀, hi₀, -, hb⟩ := h.cycles.isBranch
    obtain ⟨i', hi', hsame, -⟩ := (h.opening.logged hst.timelines).persists.inst hi₀
    cases hi.symm.trans hi'
    exact Int.le_of_eq (hsame.trans hb).symm
  have hpop : Undisturbed (· < v.current) (w'.builder.defer bra .x v.current)
      { w'.builder.defer bra .x v.current with contexts := rest } :=
      .of_same (fun _ => rfl) rfl fun _ => rfl
  have hlink : Undisturbed (· < v.current) (w'.builder.defer bra .x v.current) s :=
    hs ▸ hpop.trans (.link _ _)
  have hrepair := Changes.undisturbed (h.changes (W := fun _ => True) (fun _ _ _ => trivial)
    (fun _ _ _ => trivial) fun _ _ => trivial) (hsteps.logged hst.timelines).timelines
    (hsteps.paved hst.timelines hst.paved)
  have hwait := Undisturbed.defer (h.opening.logged hst.timelines).timelines
    (h.opening.paved hst.timelines hst.paved) hi hside hblock w''.current
  exact ht ▸ ((hlink.trans hrepair).trans (.addBlock _)).trans hwait

/-! ## Where statements go on -/

/-- The first part of an `if` is entered. -/
theorem canLower_openIf (scope : Scope) (kind : JoinKind) (cond : Relation) (h : CanLower F w) :
    Yields (openIf scope kind cond) w fun _ w' => ∃ F', CanLower F' w' := by
  refine yields_openIf <| .of_ok fun branch w₁ hrel doms hd r hr => ?_
  obtain ⟨op, -, -, hends⟩ := ends_lowerRelation scope cond h.canAdd _ _ hrel
  have hst := hends.steady h.toSteady (computes_lowerRelation scope cond h.ready _ _ hrel)
  exact ⟨_, (hst.begins kind hd rfl (by intro he; cases he) hr).canLower⟩

/-- The second part of an `if` is entered. -/
theorem canLower_openElse (scope : Scope) (cond : Relation) {thenPart : Lower Unit}
    {ms : Walk → List Moment} (h : CanLower F w) (hext : Extending thenPart ms)
    (hthen : Advancing thenPart ops) {f : IfFrame} {w₂ : Walk}
    (hopen : openIf scope .ifElse cond w = .ok f v) (hpart : thenPart v = .ok ⟨⟩ w₂) :
    Yields (openElse f) w₂ fun _ w' => ∃ F', CanLower F' w' := by
  have htake : Yields (openIf scope .ifElse cond) w fun f w' => ∃ branch w₁ r,
      lowerRelation scope cond w = .ok branch w₁ ∧
      r = (w₁.builder.openJoin .ifElse).addBlock
        { kind := .thenPart, dominators := w₁.builder.dominatorsOf w₁.current,
          parents := [w₁.current] } ∧
      f = ⟨branch, w₁.current, w₁.builder.dominatorsOf w₁.current⟩ ∧ w' = ⟨r.2, r.1⟩ :=
    yields_openIf <| .of_ok fun branch w₁ hrel doms hd r hr => ⟨branch, w₁, r, hrel, hd ▸ hr,
      hd ▸ rfl, rfl⟩
  obtain ⟨branch, w₁, r, hrel, hr, rfl, rfl⟩ := htake _ _ hopen
  have hfirst := firstPart scope cond .ifElse h hext hthen hrel hr hpart
  obtain ⟨ns, hin⟩ := hfirst.inside
  have hturn := yields_openElse (w := w₂)
    (f := ⟨branch, w₁.current, w₁.builder.dominatorsOf w₁.current⟩) (P := fun _ w' => Ready _ w' →
    ∃ F', CanLower F' w') <| .of_ok fun bra w₃ hemit r' hr' i hi hop hready =>
      ⟨_, (hfirst.turns hemit hr' hi hop hready).canLower⟩
  exact (hturn.and (inside_openElse hin hfirst.front.ready rfl (dominatorsOf_eq _ _))).imp
    fun _ _ ⟨hturn, hin, _⟩ => hturn hin.ready

/-- The body of a loop is entered. -/
theorem canLower_openLoop (scope : Scope) (cond : Relation) (h : CanLower F w) :
    Yields (openLoop scope cond) w fun _ w' => ∃ F', CanLower F' w' := by
  refine ((inside_openLoop scope cond h.ready).and (openLoop_cases scope cond w)).imp ?_
  rintro f _ ⟨⟨hin, -⟩, r, w₁, r', hr, hrel, -, hr', rfl⟩
  obtain ⟨op, hbody⟩ := entersBody h hr hrel hr' hin.ready
  exact ⟨_, hbody.canLower⟩

end

/-! ## The loops of a computation -/

/-- A call that closes a loop, with the state it starts from. -/
structure Closing where
  state : State
  header : BlockId
  bottom : BlockId
  branch : InstId

mutual

/-- The loops that lowering a statement closes, in the order it comes to their ends. -/
def stmtClosings (scope : Scope) : Stmt → Walk → List Closing
  | .assign .. | .call .. | .hole => fun _ => []
  | .ifThen cond thenPart _ =>
    fun w => follow (openIf scope .ifThen cond w) fun _ w => stmtsClosings scope thenPart w
  | .ifElse cond thenPart elsePart _ => fun w =>
    follow (openIf scope .ifElse cond w) fun f w =>
      stmtsClosings scope thenPart w ++
        follow (lowerStmts scope thenPart w) fun _ w =>
          follow (openElse f w) fun _ w => stmtsClosings scope elsePart w
  | .loop cond body _ => fun w =>
    follow (openLoop scope cond w) fun f w =>
      stmtsClosings scope body w ++
        follow (lowerStmts scope body w) fun _ w =>
          follow (endBody f w) fun bottom w => [⟨w.builder, f.header, bottom, f.branch⟩]

/-- The loops that lowering statements in order closes. -/
def stmtsClosings (scope : Scope) : List Stmt → Walk → List Closing
  | [] => fun _ => []
  | s :: ss => fun w =>
    stmtClosings scope s w ++ follow (lowerStmt scope s w) fun _ w => stmtsClosings scope ss w

end

/-- The loops that lowering a computation closes. -/
def closings (settings : Settings) (c : Computation) : List Closing :=
  follow (declareArrays c.arrays { builder := .new settings }) fun _ w =>
    stmtsClosings ⟨settings.strict, c.vars.map (·.name)⟩ c.body w

/-- A loop can be closed, and no block is touched that does not follow its header. -/
def Closing.Undisturbed (k : Closing) : Prop :=
  ∃ exit t, reconcileLoop k.header k.bottom k.branch k.state = .ok exit t ∧
    Builder.Undisturbed (k.state.Outside k.header) k.state t

/-- The condition and the body of a loop are lowered, and the jump back waits for the header. -/
inductive Closing.Ends : Closing → Prop
  | mk {F : BlockId} {w v w' : Walk} {branch bra : InstId} {ops : List Opcode} {ms : List Moment}
      (cycles : Cycles F w v w' branch bra ops)
      (bottom : AtBottom F w { w' with builder := w'.builder.defer bra .x v.current }
        v.current ms) :
      Ends ⟨w'.builder.defer bra .x v.current, v.current, w'.current, branch⟩

theorem Closing.Ends.undisturbed {k : Closing} (h : k.Ends) : k.Undisturbed := by
  obtain @⟨F, w, v, w', branch, bra, ops, ms, h, hbottom⟩ := h
  obtain ⟨exit, t, c, s, u, hcall, hdone⟩ := h.ending hbottom
  refine ⟨exit, t, hcall, hdone.undisturbed_front.mono ?_⟩
  rintro b ⟨hb, hout⟩
  by_contra hle
  have hvalid : (w'.builder.view.graph b).isSome :=
    h.view_defer ▸ State.isSome_view_graph.mpr (Option.isSome_iff_exists.mp hb)
  refine hout (h.spread .refl (fun p b hp hchild => hp.tail (State.leads_iff.mpr ?_))
    (Int.not_lt.mp hle) hvalid)
  rwa [h.view_defer]

mutual

theorem ends_stmtClosings (scope : Scope) : ∀ (st : Stmt) {F : BlockId} {w : Walk}, CanLower F w →
    ∀ k ∈ stmtClosings scope st w, k.Ends
  | .assign .., _, _, _, _, hk => by rw [stmtClosings] at hk; cases hk
  | .call .., _, _, _, _, hk => by rw [stmtClosings] at hk; cases hk
  | .hole, _, _, _, _, hk => by rw [stmtClosings] at hk; cases hk
  | .ifThen cond thenPart _, F, w, h, k, hk => by
    rw [stmtClosings] at hk
    obtain ⟨f, w₁, hopen, hk⟩ := mem_follow.mp hk
    obtain ⟨F', h₁⟩ := canLower_openIf scope .ifThen cond h _ _ hopen
    exact ends_stmtsClosings scope thenPart h₁ k hk
  | .ifElse cond thenPart elsePart _, F, w, h, k, hk => by
    rw [stmtClosings] at hk
    obtain ⟨f, w₁, hopen, hk⟩ := mem_follow.mp hk
    rcases mem_append.mp hk with hk | hk
    · obtain ⟨F', h₁⟩ := canLower_openIf scope .ifElse cond h _ _ hopen
      exact ends_stmtsClosings scope thenPart h₁ k hk
    · obtain ⟨_, w₂, hpart, hk⟩ := mem_follow.mp hk
      obtain ⟨g, w₃, helse, hk⟩ := mem_follow.mp hk
      obtain ⟨F', h₃⟩ := canLower_openElse scope cond h (extends_lowerStmts scope thenPart)
        (onward_lowerStmts scope thenPart) hopen hpart _ _ helse
      exact ends_stmtsClosings scope elsePart h₃ k hk
  | .loop cond body _, F, w, h, k, hk => by
    rw [stmtClosings] at hk
    obtain ⟨⟨header, branch⟩, v, hopen, hk⟩ := mem_follow.mp hk
    rcases mem_append.mp hk with hk | hk
    · obtain ⟨F', hv⟩ := canLower_openLoop scope cond h _ _ hopen
      exact ends_stmtsClosings scope body hv k hk
    · obtain ⟨_, w₂, hpart, hk⟩ := mem_follow.mp hk
      obtain ⟨bottom, u, hend, hk⟩ := mem_follow.mp hk
      cases mem_singleton.mp hk
      obtain ⟨r, w₁, r', bra, w₃, ms, ns, hheader, rfl, rfl, rfl, he⟩ :=
        endBody_cases scope cond h.ready (extends_lowerStmts scope body) hopen hpart hend
      cases hheader
      obtain ⟨-, hcycles⟩ := he.cycles h (extends_lowerStmts scope body)
        (onward_lowerStmts scope body) hpart
      exact ⟨hcycles, he.ended⟩

theorem ends_stmtsClosings (scope : Scope) : ∀ (ss : List Stmt) {F : BlockId} {w : Walk},
    CanLower F w → ∀ k ∈ stmtsClosings scope ss w, k.Ends
  | [], _, _, _, _, hk => by rw [stmtsClosings] at hk; cases hk
  | st :: ss, F, w, h, k, hk => by
    rw [stmtsClosings] at hk
    rcases mem_append.mp hk with hk | hk
    · exact ends_stmtClosings scope st h k hk
    · obtain ⟨_, w₁, hst, hk⟩ := mem_follow.mp hk
      have h₁ := (onward_lowerStmt scope st h _ _ hst).canLower h
        (extends_lowerStmt scope st h.ready _ _ hst)
      exact ends_stmtsClosings scope ss h₁ k hk

end

theorem undisturbed_stmtsClosings (scope : Scope) (ss : List Stmt) {F : BlockId} {w : Walk}
    (h : CanLower F w) : ∀ k ∈ stmtsClosings scope ss w, k.Undisturbed :=
  fun k hk => (ends_stmtsClosings scope ss h k hk).undisturbed

/-- Whenever lowering closes a loop, this succeeds and leaves alone what does not follow the header:
an instruction of a block that no path from the header leads to is the same but for what it records,
a version of such a block is the same, and so is the timeline of such a block, but for constants at
the end of the block in front of all code and versions 0 at the end of the first block with code. -/
theorem outside_undisturbed (settings : Settings) (c : Computation) : ∀ k ∈ closings settings c,
    ∃ exit t, reconcileLoop k.header k.bottom k.branch k.state = .ok exit t ∧
      Undisturbed (k.state.Outside k.header) k.state t := by
  intro k hk
  obtain ⟨_, w, hdeclare, hk⟩ := mem_follow.mp hk
  obtain ⟨h, -⟩ := canLower_declareArrays c.arrays (canLower_new settings 0) rfl _ _ hdeclare
  exact undisturbed_stmtsClosings _ c.body h k hk

/-- Two loops, one in the other. -/
def nestedLoops : Computation where
  vars := []
  arrays := []
  body :=
    let set (name : String) (e : Expr) : Stmt := .assign ⟨name, [], .start⟩ e .start
    let x : Expr := .element "x" [] .start
    [set "x" (.num 3),
      .loop ⟨.less, .num 0, x⟩
        [set "y" (.binary .add x (.num 1)),
          .loop ⟨.less, .num 0, .element "y" [] .start⟩
          [set "y" (.binary .sub x (.element "y" [] .start))] .start,
          set "x" (.binary .sub x (.num 1))] .start]

theorem outside_undisturbed_nestedLoops : ∃ k ∈ closings {} nestedLoops, k.header = 4 ∧
    ∃ exit t, reconcileLoop k.header k.bottom k.branch k.state = .ok exit t ∧
      Undisturbed (k.state.Outside k.header) k.state t := by
  have hany : (closings {} nestedLoops).any (·.header == 4) = true := by decide +kernel
  obtain ⟨k, hk, hheader⟩ := any_eq_true.mp hany
  exact ⟨k, hk, beq_iff_eq.mp hheader, outside_undisturbed {} nestedLoops k hk⟩

end SingleAssignment.Lowering
