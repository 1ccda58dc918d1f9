import SingleAssignment.Proofs.Flow

/-!
# How loops are left

The header of a loop is entered from the block in front of it, and from the last block of its body.
When the body is lowered, what was assigned there is merged at the header and the loop is repaired
(`Cycles.repeats`). What is merged in the loop was assigned there, and so it has a version in front
of the loop by then: the repair gives nothing the value zero that no warning tells of.
-/

namespace SingleAssignment.Lowering

open Code Builder Source List Builder.State

section

variable {F : BlockId} {w v w' : Walk} {branch bra : InstId} {ops : List Opcode} {ms : List Moment}

/-- The condition and the body of a loop are lowered, up to the jump back to the header, where `v`
began. -/
structure Cycles (F : BlockId) (w v w' : Walk) (branch bra : InstId) (ops : List Opcode) :
    Prop where
  front : CanLower F w
  begins : Begins F .loop w (v.current, v.builder)
  steady : Steady (floorAt F w.builder) w'
  later : v.current < w'.current
  inner : Amid 0 [v.current] v w' ops
  children : ∀ b, b < v.current → w'.builder.view.children b = v.builder.view.children b
  acts : ∃ l op, op.isConditional = true ∧ w'.builder.acts v.current = l ++ [(branch, op)]
  child : ∃ top, w'.builder.view.children v.current = [top]
  jump : ∃ l, w'.builder.acts w'.current = l ++ [(bra, .bra)]
  childless : w'.builder.view.children w'.current = []

theorem Ready.lt_size (h : Ready F w) {b : BlockId} (hb : (w.builder.block? b).isSome) :
    b < w.builder.view.size :=
  ((h.sound.laid.layout.graph.valid b).mp (by simpa [State.view] using hb)).2

namespace Cycles

theorem header (h : Cycles F w v w' branch bra ops) : v.current = w.builder.view.size :=
  h.begins.opens.current

/-- Seen from in front of the loop, only the header is not yet left in a known way. -/
theorem outer (h : Cycles F w v w' branch bra ops) : Amid 1 [v.current] w w' ops := by
  have hst := h.front.toSteady
  have hbegin := (Amid.refl w).begins hst h.begins
  have hlt : w.current < v.current := by
    rw [h.header, ← hst.ready.newest]
    exact Int.lt_succ _
  have hsettled : Amid 1 [] w v [] := by
    refine hbegin.settle (fun _ hb => by cases hb) fun b hb _ => ?_
    cases mem_singleton.mp hb
    refine .falls (t := v.current) ?_ ?_
    · have hsteps : Steps 0 (fun _ => True) [] w.builder v.builder := h.begins.steps trivial
      rw [(hsteps.logged hst.timelines).acts, filter_nil, map_nil, append_nil]
      exact h.front.opened.acts
    · rw [h.begins.children, if_pos rfl, h.front.childless]
      rfl
  exact hsettled.trans h.inner h.begins.canLower.timelines h.children (fun _ hb => by cases hb)
    fun b hb => mem_singleton.mp hb ▸ Int.le_refl _

/-- The versions in front of the loop stand for instructions there. -/
theorem founded (h : Cycles F w v w' branch bra ops) : w'.builder.Founded v.current := by
  have hst := h.front.toSteady
  have hstart : startBlock < v.current := by
    rw [h.header, ← hst.ready.newest]
    exact Int.lt_of_le_of_lt hst.ready.start_le (Int.lt_succ _)
  have hfront : w.builder.Founded v.current :=
    .of_housed hst.issued hst.housed fun b hb => h.header ▸ hst.ready.lt_size hb
  have hsteps : Steps v.current (fun _ => True) [] w.builder v.builder := h.begins.steps trivial
  obtain ⟨l, -, -, -, hinner⟩ := h.inner.tells
  exact hinner.founded h.begins.canLower.timelines hstart
    (hsteps.founded hst.timelines hstart hfront)

/-- What is merged in the loop was assigned there. -/
theorem merged (h : Cycles F w v w' branch bra ops) {j : BlockId} (hj : v.current ≤ j)
    {name : String} (hname : name ∈ w'.builder.view.joinVars j) : ∀ c ∈ w'.builder.contexts,
    name ∈ c.touched := by
  have hst := h.front.toSteady
  obtain ⟨l, -, -, -, hinner⟩ := h.inner.tells
  have hsteps : Steps 0 (· = .scope) [] w.builder v.builder := h.begins.steps rfl
  rcases hinner.mem_joinVars h.begins.canLower.timelines hname with hold | hwant
  · rcases hsteps.mem_joinVars hst.timelines hold with hold | hwant
    · have hnone : w.builder.block? j = none := by
        by_contra hsome
        have hlt := hst.ready.lt_size (Option.isSome_iff_ne_none.mpr hsome)
        rw [h.header] at hj
        exact absurd hlt (Int.not_lt.mpr hj)
      simp [State.view, hnone] at hold
    · cases hwant
  · rcases hwant with hwant | hwant
    · cases hwant
    · exact hwant.2

/-- The code of a loop records versions of the loop only. -/
theorem secluded (h : Cycles F w v w' branch bra ops) : w'.builder.Secluded v.current := by
  have hst := h.front.toSteady
  have hfront : w.builder.Secluded v.current := fun _ _ hi hle =>
    absurd (h.header ▸ hst.ready.lt_size (hst.housed hi)) (Int.not_lt.mpr hle)
  have hsteps : Steps v.current (fun _ => True) [] w.builder v.builder := h.begins.steps trivial
  obtain ⟨l, -, -, -, hinner⟩ := h.inner.tells
  exact hinner.secluded h.begins.canLower.timelines (hsteps.secluded hst.timelines hfront)

/-- A block of the loop other than the header is entered from one of the loop. -/
theorem parent_ge (h : Cycles F w v w' branch bra ops) {b p : BlockId} (hb : v.current < b)
    (hp : p ∈ w'.builder.view.parents b) : v.current ≤ p := by
  have hfront := h.front.ready
  by_contra hlt
  have hchild := (h.steady.ready.sound.laid.layout.graph.parent hp).2
  rw [h.children p (Int.not_le.mp hlt), h.begins.children] at hchild
  split at hchild
  · rename_i he
    rw [he, h.front.childless, nil_append] at hchild
    exact Int.ne_of_gt hb (mem_singleton.mp hchild)
  · have hvalid := (hfront.sound.laid.layout.graph.edge hchild).1
    have := hfront.lt_size (isSome_block hvalid)
    have := h.header
    lia

/-- What holds of the header and passes along edges holds of all blocks from the header on. -/
theorem spread (h : Cycles F w v w' branch bra ops) {P : BlockId → Prop} (hheader : P v.current)
    (hedge : ∀ p b, P p → b ∈ w'.builder.view.children p → P b) {b : BlockId} (hb : v.current ≤ b)
    (hvalid : (w'.builder.view.graph b).isSome) : P b := by
  have hsound := h.steady.ready.sound
  have hg := hsound.laid.layout.graph
  have hpos : entryBlock < v.current := h.begins.canLower.ready.entry_lt
  -- Each block is entered from one with a smaller id.
  have key : ∀ (k : Nat) (b : BlockId), b < k → v.current ≤ b → (w'.builder.view.graph b).isSome →
    P b := by
    intro k
    induction k with
    | zero =>
      intro b hk hb
      exact absurd (Int.lt_of_lt_of_le hpos hb) (Int.not_lt.mpr (Int.le_of_lt hk))
    | succ k ih =>
      intro b hk hb hvalid
      rcases Int.lt_or_eq_of_le hb with hlt | rfl
      · have hbeyond : b + 1 ∉ w'.builder.view.doms b := fun hmem => by
          have := (hg.le_of_mem_doms hmem).2
          lia
        obtain ⟨p, hp, hless, -⟩ := hsound.entered b _ hvalid
          (Int.ne_of_gt (Int.lt_of_lt_of_le hpos hb)) hbeyond
        obtain ⟨hvalid', hchild⟩ := hg.parent hp
        exact hedge p b (ih p (by lia) (h.parent_ge hlt hp) hvalid') hchild
      · exact hheader
  exact key _ b ((hg.valid b).mp hvalid).2 hb hvalid

end Cycles

/-- The edge back to the header of a loop was made in state `s`, the jump waits for it, and the loop
is closed. -/
structure Linked (w v w' : Walk) (bra : InstId) (c : JoinContext) (s : State) : Prop where
  steps : ∀ {G W}, W .scope → Steps G W [] w'.builder s
  contexts : w'.builder.contexts = c :: s.contexts
  size : s.view.size = w'.builder.view.size
  children : ∀ b, s.view.children b =
    if b = w'.current then [v.current] else w'.builder.view.children b
  joinParents : s.joinParents v.current = (w.current, w'.current)
  entered : ∀ j, v.current ≤ j → ∀ p ∈ s.view.parents j, p = w.current ∨ v.current ≤ p
  closed : ∀ b c, v.current ≤ b → c ∈ s.view.children b → v.current ≤ c
  joinVars : s.view.joinVars = w'.builder.view.joinVars
  deferrals : s.deferrals = w'.builder.deferrals.push ⟨bra, .x, v.current⟩

theorem Cycles.linked {s : State} {c : JoinContext} {rest : List JoinContext} {floor : BlockId}
    (h : Cycles F w v w' branch bra ops)
    (hb : AtBottom F w { w' with builder := w'.builder.defer bra .x v.current } v.current ms)
    (hsound : Sound floor s) (hctx : (w'.builder.defer bra .x v.current).contexts = c :: rest)
    (hs : s = State.link { w'.builder.defer bra .x v.current with contexts := rest }
      w'.current v.current) :
    Linked w v w' bra c s := by
  obtain ⟨-, hin, hf, -⟩ := hb
  have hst := h.steady
  have hg := hsound.laid.layout.graph
  have hfront := h.front.ready
  have hlater := h.later
  have hpre : w.current < v.current := by
    rw [h.header, ← hfront.newest]
    exact Int.lt_succ _
  obtain ⟨l, hl⟩ := h.jump
  obtain ⟨i, hi, hop, -⟩ := hst.timelines.inst?_of_mem_acts
    (hl ▸ mem_append_right l (mem_singleton_self _))
  have hside : i.isTarget .x = true := by simp [Instruction.isTarget, Opcode.isBranch, hop]
  have hvalid : (w'.builder.view.graph v.current).isSome := by
    have hpos := h.begins.canLower.ready.entry_lt
    have hsize := hst.ready.newest
    exact (hst.ready.sound.laid.layout.graph.valid _).mpr ⟨Int.le_of_lt hpos, by lia⟩
  have hview := view_defer hi hside v.current
  have hctx₀ := contexts_defer w'.builder bra .x v.current
  let s₀ : State := { w'.builder.defer bra .x v.current with contexts := rest }
  have hview₀ : s₀.view = w'.builder.view := hview
  have hbottom : (s₀.view.graph w'.current).isSome := by
    rw [hview₀]
    exact hst.ready.isSome_current
  have hchildren : ∀ b, s.view.children b = if b = w'.current then [v.current] else
    w'.builder.view.children b := by
    intro b
    rw [hs, children_link (s := s₀) hbottom, hview₀]
    by_cases hb : b = w'.current
    · rw [if_pos hb, hb, h.childless]
      simp
    · rw [if_neg hb, if_neg fun hboth => hb hboth.1]
  have hparents : ∀ b, s.view.parents b =
      if b = v.current then [w.current, w'.current] else w'.builder.view.parents b := by
    intro b
    rw [hs, parents_link (s := s₀) (by rw [hview₀]; exact hvalid), hview₀]
    by_cases hb : b = v.current
    · have hone : w'.builder.view.parents v.current = [w.current] := hview ▸ hf.parents
      have hnew : w'.current ∉ [w.current] := fun hmem => by
        have := mem_singleton.mp hmem
        lia
      rw [if_pos hb, hb, hone, if_pos ⟨rfl, hnew⟩, singleton_append]
    · rw [if_neg hb, if_neg fun hboth => hb hboth.1]
  have hlinked : s.view = w'.builder.view.withGraph w'.builder.view.size
      (w'.builder.view.linkGraph w'.current v.current) := by
    rw [hs, view_link (s := s₀), hview₀]
  have hdefer : ∀ {G W}, Steps G W [] w'.builder (w'.builder.defer bra .x v.current) :=
    .defer hi hside _
  exact {
    steps := fun {G W} hW => by
      rw [hs]
      exact (hdefer.andThen (.closeJoin hW hctx)).andThen (.link _ _)
    contexts := by
      rw [hs, ← hctx₀, hctx]
      exact congrArg (c :: ·) (congrArg Prod.fst (ledger_link s₀ w'.current v.current)).symm
    size := by
      rw [hlinked]
      rfl
    children := hchildren
    joinParents := by
      rw [joinParents_eq, hparents, if_pos rfl]
      rfl
    entered := fun j hj p hp => by
      -- A block in front of the loop leads nowhere new.
      obtain ⟨hp', hchild⟩ := hg.parent hp
      by_contra hnot
      obtain ⟨hne, hlt⟩ := not_or.mp hnot
      have hlt' : p < w.current := by
        have := h.header
        have := hfront.newest
        lia
      have hspan := hin.spans.children p hlt'
      dsimp only at hspan
      rw [hchildren, if_neg (by lia), ← hview, hspan] at hchild
      have hold := (hfront.sound.laid.layout.graph.edge hchild).1
      have := ((hfront.sound.laid.layout.graph.valid j).mp hold).2
      have := h.header
      lia
    closed := fun b c hb hc => by
      -- No edge leads from the loop to a block in front of it.
      by_contra hlt
      have hparent := (hg.edge hc).2.1
      have hspan := hin.spans.parents c (by have := h.header; lia)
      dsimp only at hspan
      rw [hparents, if_neg (by lia), ← hview, hspan] at hparent
      have hold := (hfront.sound.laid.layout.graph.parent hparent).1
      have := ((hfront.sound.laid.layout.graph.valid b).mp hold).2
      have := h.header
      lia
    joinVars := by
      rw [hlinked]
      rfl
    deferrals := by
      rw [hs]
      refine (congrArg (·.2.2.1) (frame_link (s := s₀) (p := w'.current)
        (c := v.current))).trans ?_
      exact deferrals_defer _ bra .x v.current }

/-- A loop was closed whose header is the `n`-th block: its last block leads back there, and the
header leads to a new block behind the loop. The jump and the branch wait for these blocks,
variables are merged at the header, and the loop is repaired. -/
structure Repeats (n : Nat) (branch bra : InstId) (w w' : Walk) : Prop where
  current : w'.current = w.builder.view.size
  size : w'.builder.view.size = w.builder.view.size + 1
  steps : Steps n (Want.scoped n w'.builder.contexts) [] w.builder w'.builder
  contexts : ∃ c rest, w.builder.contexts = c :: rest ∧ Wider rest w'.builder.contexts
  children : ∀ b, w'.builder.view.children b = if b = n then w.builder.view.children b ++
    [w'.current] else if b = w.current then [(n : BlockId)] else w.builder.view.children b
  childless : w'.builder.view.children w'.current = []
  opened : w'.builder.Open w'.current
  deferrals : w'.builder.deferrals = (w.builder.deferrals.push ⟨bra, .x, n⟩).push
    ⟨branch, .y, w'.current⟩

namespace Linked

variable {c : JoinContext} {s : State}

/-- The blocks of the loop are below the block in front of it. -/
theorem doms {floor : BlockId} (h : Linked w v w' bra c s) (hs : Sound floor s)
    (hstart : entryBlock < v.current) {j p d : BlockId} (hj : v.current ≤ j)
    (hp : p ∈ s.view.parents j) (hd : d ∈ s.view.doms w.current) : d ∈ s.view.doms p := by
  have hg := hs.laid.layout.graph
  rcases h.entered j hj p hp with rfl | hle
  · exact hd
  · have hvalid := (hg.parent hp).1
    refine hs.entered.mem_doms hg hstart (fun b hb q hq => ?_) s.view.size p
      ((hg.valid p).mp hvalid).2 hle hvalid
    rcases h.entered b hb q hq with rfl | hle
    · exact .inr (.inl hd)
    · exact .inl hle

/-- Variables can be merged at the header. -/
theorem gathered {floor : BlockId} (h : Linked w v w' bra c s)
    (hcyc : Cycles F w v w' branch bra ops) (hs : Sound floor s) : Gathered w' v.current s := by
  have hst := hcyc.steady
  have hsteps : Steps v.current (fun _ => True) [] w'.builder s := h.steps trivial
  have hgate : s.view.children entryBlock = [startBlock] := by
    rw [h.children, if_neg (Int.ne_of_lt hst.ready.entry_lt)]
    exact hst.gate
  refine ⟨h.steps, hsteps.allIssued hst.timelines hst.issued, ?_, fun p hp => ?_⟩
  · rw [hcyc.header, ← hcyc.front.ready.newest]
    exact Int.lt_of_le_of_lt hcyc.front.ready.start_le (Int.lt_succ _)
  · rcases mem_joinParents hp with rfl | hp
    · exact fun hne => absurd rfl hne
    · exact hs.rooted hgate (hs.laid.layout.graph.parent hp).1

/-- All blocks from the header on are reached from it. -/
theorem mem_reach {floor : BlockId} {t : State} (h : Linked w v w' bra c s)
    (hcyc : Cycles F w v w' branch bra ops) (hvalid : (s.view.graph v.current).isSome)
    (hworks : AddsCode floor s t) {b : BlockId} (hb : v.current ≤ b)
    (hvalid' : (t.view.graph b).isSome) : b ∈ t.reach v.current := by
  have hg := hworks.laid.layout.graph
  obtain ⟨hheader, hclosed⟩ := reach_closed hg (hworks.isSome hvalid)
  refine hcyc.spread hheader (fun p b hp hchild => hclosed p hp b ?_) hb ?_
  · rw [View.children_of_graph hworks.graph, h.children, if_neg]
    · exact hchild
    · rintro rfl
      rw [hcyc.childless] at hchild
      cases hchild
  · rw [hcyc.steady.ready.sound.laid.layout.graph.valid, ← h.size, ← hworks.size]
    exact (hg.valid b).mp hvalid'

/-- Once variables are merged at the header, the loop can be repaired. -/
theorem repairable {floor : BlockId} (h : Linked w v w' bra c s)
    (hcyc : Cycles F w v w' branch bra ops) (hs : Sound floor s) (hlow : floor ≤ v.current)
    (hvalid : (s.view.graph v.current).isSome) :
    Repairable floor v.current (s.reconcileAll v.current c.touched) := by
  have hst := hcyc.steady
  have hsteps : Steps v.current (fun _ => True) [] w'.builder s := h.steps trivial
  have hg := h.gathered hcyc hs
  have hmerging : Merging v.current (fun _ => True) v.current c.touched s :=
    hg.merging hvalid (fun _ _ _ => trivial) (fun _ _ => trivial) fun _ _ => trivial
  have hmerge := hmerging.changes_reconcileAll hs.laid hg.issued
  have hworks := hs.laid.reconcileAll hvalid c.touched
  have hsound := hs.works hworks
  refine ⟨hsound.laid, Changes.allIssued hmerge hs.laid.timelines hg.issued, hlow, hg.start, ?_,
    fun _ => h.mem_reach hcyc hvalid hworks,
    Changes.secluded hmerge hs.laid.timelines (hsteps.secluded hst.timelines hcyc.secluded),
    fun j p hp => ?_⟩
  · rw [View.children_of_graph hworks.graph]
    exact h.closed
  · rcases mem_joinParents hp with rfl | hp
    · exact fun hne => absurd rfl hne
    · refine hsound.rooted ?_ (hsound.laid.layout.graph.parent hp).1
      rw [View.children_of_graph hworks.graph, h.children, if_neg (Int.ne_of_lt hst.ready.entry_lt)]
      exact hst.gate

/-- Merging at the header and repairing the loop are told. -/
theorem changes {floor : BlockId} {W : Want → Prop} (h : Linked w v w' bra c s)
    (hcyc : Cycles F w v w' branch bra ops) (hs : Sound floor s) (hlow : floor ≤ v.current)
    (hvalid : (s.view.graph v.current).isSome)
    (hzero : ∀ name ∈ c.touched, ∀ p, W (.zero (some .partialJoin) p name))
    (hmark : ∀ j, ∀ name ∈ c.touched, W (.mark j name))
    (hjoin : ∀ name ∈ c.touched, W (.join v.current name)) :
    Changes v.current W s ((s.reconcileAll v.current c.touched).repairLoop v.current) := by
  have hst := hcyc.steady
  have hfront := hcyc.front
  have hpos : entryBlock < v.current := hcyc.begins.canLower.ready.entry_lt
  have hsteps : Steps v.current (fun _ => True) [] w'.builder s := h.steps trivial
  have hg := h.gathered hcyc hs
  have hmerging : Merging v.current W v.current c.touched s :=
    hg.merging hvalid hzero (hmark v.current) hjoin
  have hmerge := hmerging.changes_reconcileAll hs.laid hg.issued
  have hworks := hs.laid.reconcileAll hvalid c.touched
  -- What was assigned in the loop has an anchor in front of it.
  have hfounded := hsteps.founded hst.timelines hg.start hcyc.founded
  have hanchored : ∀ name ∈ c.touched,
      (s.reconcileAll v.current c.touched).Anchored v.current w.current name := by
    intro name hname
    have hfirst : (s.joinParents v.current).1 = w.current := congrArg Prod.fst h.joinParents
    have hall := hmerging.anchored_reconcileAll hs.laid hg.issued hfounded
      (hfirst ▸ Int.ne_of_gt hfront.ready.entry_lt) (fun d hd => ?_) hname
    · rwa [hfirst] at hall
    · rw [hfirst, dominatorsOf_eq] at hd
      have hle := (hs.laid.layout.graph.le_of_mem_doms hd).2
      rw [hcyc.header, ← hfront.ready.newest]
      exact Int.lt_of_le_of_lt hle (Int.lt_succ _)
  refine hmerge.trans ((h.repairable hcyc hs hlow hvalid).changes_anchored ?_ hanchored ?_
    fun j _ => hmark j)
  · intro j hj name hname
    let W₁ : Want → Prop
      | .join _ name => name ∈ c.touched
      | _ => True
    have hmerging₁ : Merging v.current W₁ v.current c.touched s :=
      hg.merging hvalid (fun _ _ _ => trivial) (fun _ _ => trivial) fun _ hname => hname
    rcases Changes.mem_joinVars (hmerging₁.changes_reconcileAll hs.laid hg.issued)
      hs.laid.timelines hname with
      hold | hwant
    · rw [h.joinVars] at hold
      exact hcyc.merged hj hold c (h.contexts ▸ mem_cons_self ..)
    · exact hwant
  · intro j hj p hp d hd
    rw [dominatorsOf_eq, View.doms_of_graph hworks.graph] at hd ⊢
    exact h.doms hs hpos hj (View.parents_of_graph hworks.graph ▸ hp) hd

end Linked

/-- The edge back to the header is made in state `s`, repairing the loop leads to state `u`, and
lowering goes on in
`w''` behind the loop, where the branches of state `t` are resolved. -/
structure Completes (F : BlockId) (w v w' w'' : Walk) (branch bra : InstId) (ops : List Opcode)
    (c : JoinContext) (s u t : State) : Prop where
  cycles : Cycles F w v w' branch bra ops
  linked : Linked w v w' bra c s
  low : floorAt F w.builder ≤ v.current
  closes : ClosesLoop (floorAt F w.builder) ⟨v.current, branch⟩
    { w' with builder := w'.builder.defer bra .x v.current } s c u t w''

theorem Cycles.completes {w'' : Walk} {s u t : State} {c : JoinContext}
    (h : Cycles F w v w' branch bra ops)
    (hb : AtBottom F w { w' with builder := w'.builder.defer bra .x v.current } v.current ms)
    (hclose : ClosesLoop (floorAt F w.builder) ⟨v.current, branch⟩
      { w' with builder := w'.builder.defer bra .x v.current } s c u t w'') :
    Completes F w v w' w'' branch bra ops c s u t := by
  obtain ⟨rest, hctx, hs⟩ := hclose.popped
  exact ⟨h, h.linked hb hclose.linked hctx hs, hb.isHeader.eq ▸ hb.front.sound.low, hclose⟩

namespace Completes

variable {w'' : Walk} {s u t : State} {c : JoinContext}

theorem works (h : Completes F w v w' w'' branch bra ops c s u t) :
    AddsCode (floorAt F w.builder) s u :=
  (h.closes.works h.low).2

theorem changes {W : Want → Prop} (h : Completes F w v w' w'' branch bra ops c s u t)
    (hzero : ∀ name ∈ c.touched, ∀ p, W (.zero (some .partialJoin) p name))
    (hmark : ∀ j, ∀ name ∈ c.touched, W (.mark j name))
    (hjoin : ∀ name ∈ c.touched, W (.join v.current name)) : Changes v.current W s u :=
  h.closes.repaired ▸ h.linked.changes h.cycles h.closes.linked h.low h.closes.valid
    hzero hmark hjoin

/-- The steps up to the block behind the loop. -/
theorem opening (h : Completes F w v w' w'' branch bra ops c s u t) :
    Steps v.current (fun _ => True) [] w'.builder (u.addExit v.current).2 :=
  ((h.linked.steps trivial).andThen
    (.of_changes (h.changes (fun _ _ _ => trivial) (fun _ _ _ => trivial)
    fun _ _ => trivial))).andThen (.addBlock _)

/-- The branch of the header is conditional, so its second slot waits for the block behind the
loop. -/
theorem waits (h : Completes F w v w' w'' branch bra ops c s u t) :
    ∃ i, (u.addExit v.current).2.inst? branch = some i ∧ i.isTarget .y = true ∧
      t = (u.addExit v.current).2.defer branch .y w''.current := by
  obtain ⟨l, op, hop, hl⟩ := h.cycles.acts
  have hst := h.cycles.steady.timelines
  obtain ⟨i₀, hi₀, hop₀, -⟩ := hst.inst?_of_mem_acts
    (hl ▸ mem_append_right l (mem_singleton_self _))
  rcases h.closes.branch with ⟨hzero, -⟩ | ⟨i, side, hi, hside, hy, ht⟩
  · dsimp only at hzero
    rw [hzero] at hi₀
    cases hi₀
  · obtain ⟨i', hi', -, hsame⟩ := (h.opening.logged hst).persists.inst hi₀
    cases hi.symm.trans hi'
    have hcond : i.op.isConditional = true := by
      rw [hsame, hop₀]
      · exact hop
      · rintro he
        rw [← hop₀, he] at hop
        cases hop
    cases hy hcond
    exact ⟨i, hi, hside, ht⟩

/-- The branches are resolved behind the loop. -/
theorem resolves {W : Want → Prop} (h : Completes F w v w' w'' branch bra ops c s u t) :
    Steps v.current W [] (u.addExit v.current).2 w''.builder := by
  obtain ⟨i, hi, hside, ht⟩ := h.waits
  rw [h.closes.builder]
  have hwait : Steps v.current W [] (u.addExit v.current).2 t :=
    ht ▸ Steps.defer hi hside w''.current
  exact hwait.andThen (.resolveBranches h.closes.sound.laid.timelines h.closes.sound.deferrals)

theorem repeats (h : Completes F w v w' w'' branch bra ops c s u t) :
    Repeats w.builder.view.size branch bra w' w'' := by
  have hst := h.cycles.steady
  have hlinked := h.linked
  have hclose := h.closes
  have hworks := h.works
  have hbuilt : Built u [v.current] (u.addExit v.current) :=
    hworks.laid.built_below rfl (by rw [hworks.graph]; exact hclose.valid) rfl
  obtain ⟨i, hi, hside, ht⟩ := h.waits
  have hbranches := hclose.sound.laid.resolveBranches hclose.sound.deferrals
  have hafter : ∀ {W : Want → Prop}, (∀ name ∈ c.touched, ∀ p,
    W (.zero (some .partialJoin) p name)) → (∀ j, ∀ name ∈ c.touched, W (.mark j name)) →
    (∀ name ∈ c.touched, W (.join v.current name)) → Steps v.current W [] s w''.builder :=
    fun hzero hmark hjoin =>
    ((Steps.of_changes (h.changes hzero hmark hjoin)).andThen hbuilt.steps).andThen h.resolves
  have hwidens : Widens s w''.builder := (hafter (W := (· ≠ .scope)) (fun _ _ _ he => (by cases he))
    (fun _ _ _ he => (by cases he)) fun _ _ he => (by cases he)).widens fun hne => hne rfl
  have htouched : ∀ name ∈ c.touched, ∀ c' ∈ w''.builder.contexts, name ∈ c'.touched := by
    intro name hname
    have hnested := hst.nested
    rw [State.Nested, hlinked.contexts, pairwise_cons] at hnested
    exact Wider.mem hwidens fun c' hc' => hnested.1 c' hc' name hname
  have hgraph : w''.builder.view.graph = (u.addExit v.current).2.view.graph := by
    rw [hclose.builder, hbranches.graph, hclose.view]
  have hsize : w''.builder.view.size = w'.builder.view.size + 1 := by
    rw [hclose.builder, hbranches.size, hclose.view, hbuilt.size, hworks.size, hlinked.size]
  have hcur : w''.current = w'.builder.view.size := by
    rw [hclose.current, hbuilt.id, hworks.size, hlinked.size]
  have hheader := h.cycles.header
  refine ⟨hcur, hsize, ?_, ⟨c, s.contexts, hlinked.contexts, hwidens⟩, fun b => ?_, ?_, ?_, ?_⟩
  · rw [← hheader]
    refine (hlinked.steps (.inl rfl)).andThen
      (hafter (fun _ _ _ => .inr rfl) (fun _ _ _ => .inr trivial) fun name hname => .inr
      ⟨Int.le_of_eq hheader.symm, htouched name hname⟩)
  · rw [View.children_of_graph hgraph, hbuilt.children, View.children_of_graph hworks.graph,
      hlinked.children, ← hheader, hclose.current]
    simp only [mem_singleton]
    by_cases hb : b = v.current
    · rw [if_pos hb, if_pos hb, if_neg (hb ▸ Int.ne_of_lt h.cycles.later)]
    · rw [if_neg hb, if_neg hb]
  · rw [View.children_of_graph hgraph, hclose.current]
    exact hbuilt.childless
  · have hlog := (h.resolves (W := fun _ => True)).logged hclose.made.laid.timelines
    exact hlog.opened (hclose.current ▸ hbuilt.opened) fun a ha => (by cases ha)
  · have hframe : w''.builder.deferrals = t.deferrals := hclose.builder ▸ congrArg (·.2.2.1)
      hbranches.frame
    rw [hframe, ht, deferrals_defer, hbuilt.deferrals, show u.deferrals = s.deferrals from
      congrArg (·.2.2.1) hworks.frame, hlinked.deferrals, hheader]

end Completes

/-- A closed loop is left in a known way: the jump goes back to the header, and the branch of the
header leaves the loop. -/
theorem Cycles.onward {w'' : Walk} (h : Cycles F w v w' branch bra ops)
    (hr : Repeats w.builder.view.size branch bra w' w'') : Onward w w'' ops := by
  have hst := h.steady
  have hheader := h.header
  obtain ⟨c, rest, hctx, hwider⟩ := hr.contexts
  have hnew : w''.current = w'.current + 1 := hr.current.trans hst.ready.newest.symm
  have hlater := h.later
  have hpre : w.current < v.current := by
    rw [hheader, ← h.front.ready.newest]
    exact Int.lt_succ _
  have hacts : ∀ b, w''.builder.acts b = w'.builder.acts b := fun b => by
    rw [(hr.steps.logged hst.timelines).acts]
    exact append_nil _
  have hmem : ∀ d, d ∈ w''.builder.deferrals.toList ↔ (d ∈ w'.builder.deferrals.toList ∨
      d = ⟨bra, .x, v.current⟩) ∨ d = ⟨branch, .y, w''.current⟩ := fun d => by
    rw [hr.deferrals, ← hheader]
    simp [or_assoc]
  have hback : Leaves w''.builder w'.current ⟨bra, .x, v.current⟩ := by
    obtain ⟨l, hl⟩ := h.jump
    refine .jump ((hacts _).trans hl) rfl ?_
    rw [hr.children, if_neg (hheader ▸ Int.ne_of_gt hlater), if_pos rfl, hheader]
  have hleave : Leaves w''.builder v.current ⟨branch, .y, w''.current⟩ := by
    obtain ⟨l, op, hop, hl⟩ := h.acts
    obtain ⟨top, hchild⟩ := h.child
    refine .branch (f := top) ((hacts _).trans hl) hop rfl ?_
    rw [hr.children, if_pos hheader, hchild]
    rfl
  have hnext := h.outer.next (v := w'') (Q := []) (n := 0) hst.timelines (by lia)
    (hr.size ▸ Nat.le_succ _) (by rw [hctx]; exact hwider)
    (.of_silent (hr.steps.mono (by lia) fun _ ha => ha)) ?_ (fun _ hb => by cases hb) ?_
    (fun d hd => (hmem d).mpr (.inl (.inl hd))) ?_
  · rw [append_nil] at hnext
    exact ⟨hnext, hr.opened, hr.childless⟩
  · intro b _ hlt hPb
    rw [hr.children, if_neg (hheader ▸ fun he => hPb (mem_singleton.mpr he)),
      if_neg (Int.ne_of_lt hlt)]
  · intro b _ hlt _ hold
    rcases hold with hle | hPb
    · cases (show b = w'.current by lia)
      exact .waits ((hmem _).mpr (.inl (.inr rfl))) hback
    · cases mem_singleton.mp hPb
      exact .waits ((hmem _).mpr (.inr rfl)) hleave
  · intro d hd
    rcases (hmem d).mp hd with (hd | rfl) | rfl
    · exact .inl hd
    · exact .inr ⟨w'.current, h.outer.current, by lia, by simp, hback⟩
    · exact .inr ⟨v.current, Int.le_of_lt hpre, by lia, by simp, hleave⟩

/-- The body of a loop is entered: `r` makes the header, where a condition ends the block in `w₁`,
and `r'` makes the first block of the body below it. -/
structure EntersBody (F : BlockId) (scope : Scope) (cond : Relation) (w : Walk)
    (r : BlockId × State) (branch : InstId) (op : Opcode) (w₁ : Walk) (r' : BlockId × State) :
    Prop where
  begins : Begins F .loop w r
  exit : cond.op.exit = [op]
  conditional : op.isConditional = true
  ends : EmitsLast ⟨r.2, r.1⟩ w₁ (cond.left.effects ++ cond.right.effects) branch op
  computes : Computes (floorAt F w.builder) ⟨r.2, r.1⟩ w₁ (relationMoments scope cond ⟨r.2, r.1⟩)
  steady : Steady (floorAt F w.builder) w₁
  built : Built w₁.builder [r.1] r'
  canLower : CanLower (floorAt F w.builder) ⟨r'.2, r'.1⟩

theorem entersBody {scope : Scope} {cond : Relation} {r r' : BlockId × State} {w₁ : Walk}
    (h : CanLower F w) (hr : r = (w.builder.openJoin .loop).addBlock
      { kind := .loopHeader, join := .loop, dominators := w.builder.dominatorsOf w.current,
        parents := [w.current] })
    (hrel : lowerRelation scope cond ⟨r.2, r.1⟩ = .ok branch w₁)
    (hr' : r' = w₁.builder.addBlock
      { kind := .loopBody, dominators := w₁.builder.dominatorsOf r.1, parents := [r.1] })
    (hready : Ready (floorAt F w.builder) ⟨r'.2, r'.1⟩) : ∃ op, EntersBody F scope cond w r branch
    op w₁ r' := by
  have hb := h.toSteady.begins .loop rfl rfl (fun _ => rfl) hr
  have hv := hb.canLower
  obtain ⟨op, hexit, hop, hcond⟩ := ends_lowerRelation scope cond hv.canAdd _ _ hrel
  have hcomp := computes_lowerRelation scope cond hv.ready _ _ hrel
  have hst := hcond.steady hv.toSteady hcomp
  have hcur : w₁.current = r.1 := hcomp.current
  have hbuilt : Built w₁.builder [r.1] r' := hst.ready.sound.laid.built_below rfl
    (hcur ▸ hst.ready.isSome_current) hr'
  have hmade : Steps 0 (fun _ => True) [] w₁.builder r'.2 := hbuilt.steps
  refine ⟨op, hb, hexit, hop, hcond, hcomp, hst, hbuilt, hst.go (v := ⟨r'.2, r'.1⟩) hmade hready ?_,
    hbuilt.opened, hbuilt.childless⟩
  rw [hbuilt.children, if_neg fun hmem => Int.ne_of_lt hv.ready.entry_lt (mem_singleton.mp hmem)]

/-- A loop that is lowered up to the end of its body: its header is made, where the condition ends
the block, then its body, and a jump back to the header. -/
theorem EndsBody.cycles {scope : Scope} {cond : Relation} {body : Lower Unit}
    {ms : Walk → List Moment} {r r' : BlockId × State} {w₁ w₂ w₃ : Walk} {bra : Value}
    {ks ns : List Moment} (he : EndsBody F scope cond w r branch w₁ r' w₂ bra w₃ ks ns)
    (h : CanLower F w) (hext : Extending body ms) (hbody : Advancing body ops)
    (hpart : body ⟨r'.2, r'.1⟩ = .ok ⟨⟩ w₂) : CanLower (floorAt F w.builder) ⟨r'.2, r'.1⟩ ∧
    Cycles F w ⟨r.2, r.1⟩ w₃ branch bra.id (cond.effects ++ ops ++ [.bra]) := by
  obtain ⟨op, hb, hexit, hop, hcond, hcomp, hst₁, hbuilt, hv'⟩ :=
    entersBody h he.header he.condition he.body he.entered.ready
  have hv := hb.canLower
  have hmade : Steps 0 (fun _ => True) [] w₁.builder r'.2 := hbuilt.steps
  have hcur₁ : w₁.current = r.1 := hcomp.current
  have htop : r'.1 = r.1 + 1 := by rw [hbuilt.id, ← hst₁.ready.newest, hcur₁]
  replace hext := hext hv'.ready _ _ hpart
  replace hpart := hbody hv' _ _ hpart
  have h₂ := hpart.canLower hv' hext
  have hle : r'.1 ≤ w₂.current := hext.current
  -- The jump back ends it.
  have hnone : w₂.builder.view.BoundedSource ({} : Value).src := boundedSource_absent _
  have hjump := (ends_emitHere h₂.canAdd .bra rfl _ _ he.jump).1
  have hcomp₃ := (computes_emitHere h₂.ready .bra (by decide) (by decide) (by decide) hnone hnone
    _ _ he.jump).1
  have hst₃ := hjump.steady h₂.toSteady hcomp₃
  have hcur₃ : w₃.current = w₂.current := hcomp₃.current
  have hchildren : ∀ b, b ≤ r.1 → w₃.builder.view.children b =
      if b = r.1 then r.2.view.children b ++ [r'.1] else r.2.view.children b := by
    intro b hb
    rw [View.children_of_graph hcomp₃.works.graph, hext.spans.children b (by dsimp only; lia),
      hbuilt.children, View.children_of_graph hcomp.works.graph]
    simp only [mem_singleton]
  refine ⟨hv', ?_⟩
  refine ⟨h, hb, hst₃, by dsimp only; lia, ?_, fun b hb => ?_, ?_, ⟨r'.1, ?_⟩, ?_, ?_⟩
  · have hall := ((((Amid.refl ⟨r.2, r.1⟩).ends hv.timelines hcond hcomp).built hst₁ hbuilt
      fun b hb => .inl (hcur₁ ▸ mem_singleton.mp hb)).part hpart hv'.timelines hext
      fun b hb => (by cases mem_singleton.mp hb; dsimp only; lia)).ends h₂.timelines hjump hcomp₃
    rw [nil_append, ← hexit, hcur₁] at hall
    exact hall
  · rw [hchildren b (Int.le_of_lt hb), if_neg (Int.ne_of_lt hb)]
  · obtain ⟨l, hl⟩ := hcond.acts hv.timelines
    refine ⟨l, op, hop, ?_⟩
    rw [hjump.tells.acts h₂.timelines (.inl (by dsimp only; lia)),
      hpart.tells.acts hv'.timelines (.inl (by dsimp only; lia)),
      (hmade.logged hst₁.timelines).acts, filter_nil, map_nil, append_nil]
    exact hl
  · rw [hchildren _ (Int.le_refl _), if_pos rfl, hv.childless]
    rfl
  · rw [hcur₃]
    exact hjump.acts h₂.timelines
  · rw [View.children_of_graph hcomp₃.works.graph, hcur₃]
    exact h₂.childless

/-- How a loop is lowered: its header is made, where the condition ends the block, then its body,
and a jump back to the header. -/
theorem lowerLoop_cycles (scope : Scope) (cond : Relation) {body : Lower Unit}
    {ms : Walk → List Moment} (h : CanLower F w) (hext : Extending body ms)
    (hbody : Advancing body ops) :
    Yields (lowerLoop scope cond body) w fun _ w' => ∃ v branch w₁ r w₂ bra w₃ c s u t,
      lowerRelation scope cond v = .ok branch w₁ ∧
      r = w₁.builder.addBlock
        { kind := .loopBody, dominators := w₁.builder.dominatorsOf v.current,
          parents := [v.current] } ∧
      CanLower (floorAt F w.builder) ⟨r.2, r.1⟩ ∧ body ⟨r.2, r.1⟩ = .ok ⟨⟩ w₂ ∧ emitHere .bra {} {}
      w₂ = .ok bra w₃ ∧ Completes F w v w₃ w' branch bra.id (cond.effects ++ ops ++ [.bra]) c s u
      t := by
  refine .bind <| .of_ok fun f v hopen => .bind
    (yields_within (.of_ok fun _ w₂ hpart => .bind <| .of_ok fun bottom w₄ hend => ?_) _)
  obtain ⟨r, w₁, r', bra, w₃, ks, ns, hheader, rfl, rfl, rfl, he⟩ :=
    endBody_cases scope cond h.ready hext hopen hpart hend
  obtain ⟨hv, hcycles⟩ := he.cycles h hext hbody hpart
  obtain ⟨header, branch⟩ := f
  cases hheader
  refine (closes_closeLoop (f := ⟨r.1, branch⟩) he.ended).imp ?_
  rintro _ w' ⟨s, c, u, t, hclose⟩
  exact ⟨⟨r.2, r.1⟩, branch, w₁, r', w₂, bra, w₃, c, s, u, t, he.condition, he.body, hv,
    hpart, he.jump, hcycles.completes he.ended hclose⟩

/-- A loop has the effects of its condition and its body, and then the jump back. -/
theorem onward_lowerLoop (scope : Scope) (cond : Relation) {body : Lower Unit}
    {ms : Walk → List Moment} (h : CanLower F w) (hext : Extending body ms)
    (hbody : Advancing body ops) :
    Yields (lowerLoop scope cond body) w fun _ w' => Onward w w'
      (cond.effects ++ ops ++ [.bra]) := by
  refine (lowerLoop_cycles scope cond h hext hbody).imp ?_
  rintro _ w' ⟨v, branch, w₁, r, w₂, bra, w₃, c, s, u, t, -, -, -, -, -, hdone⟩
  exact hdone.cycles.onward hdone.repeats

end

end SingleAssignment.Lowering
