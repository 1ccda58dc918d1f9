import SingleAssignment.Proofs.Readiness

/-!
# The course of lowering

Lowering keeps the code laid out well, and code is added behind all that is there: what a step finds
in the current block and above it is still there in the end, in the same order, and no store comes
in front of it (`extends_lowerStmt`). A repair is the only step that puts code elsewhere, and it
puts no store there.
-/

namespace SingleAssignment.Lowering

open Code Builder Source List Builder.State

/-! ## Constructs -/

theorem dominatorsOf_eq (s : State) (b : BlockId) : s.dominatorsOf b = s.view.doms b := by
  simp [State.dominatorsOf, View.doms, State.view, Block.shape, Function.comp_def]

/-- A construct was opened in front of the current block. -/
structure Opens (F : BlockId) (kind : JoinKind) (w w' : Walk) : Prop where
  ready : Ready (floorAt F w.builder) w'
  spans : Spans w.builder.view.size w.current w.builder w'.builder
  current : w'.current = w.builder.view.size
  doms : w'.builder.view.doms w'.current = w'.current :: w.builder.view.doms w.current
  parents : w'.builder.view.parents w'.current = [w.current]
  kinds : kinds w' = kind :: kinds w

section

variable {F : BlockId} {w w₁ : Walk}

/-- While a join is open, the versions of the outermost construct may be replayed. -/
theorem floorAt_open {s : State} {kind : JoinKind} {ks : List JoinKind}
    (h : s.contexts.map (·.kind) = kind :: ks) : floorAt F s = F := by
  rw [floorAt, if_neg]
  intro he
  rw [List.isEmpty_iff] at he
  rw [he] at h
  cases h

/-- Where the joins are open that were, the versions may be replayed that could be. -/
theorem sound_settle {s : State} (h : Sound (floorAt F w.builder) s)
    (hk : s.contexts.map (·.kind) = kinds w) : Sound (floorAt F s) s := by
  by_cases he : s.contexts = []
  · rw [floorAt, he]
    exact h.raise
  · have hw : w.builder.contexts ≠ [] := by
      intro hnil
      rw [kinds, hnil] at hk
      exact he (map_eq_nil_iff.mp hk)
    have hF : ∀ t : State, t.contexts ≠ [] → floorAt F t = F := by
      intro t ht
      rw [floorAt, if_neg]
      rwa [List.isEmpty_iff]
    rw [hF s he]
    rwa [hF w.builder hw] at h

theorem opens_block (h : Ready F w) (kind : JoinKind) {d : BlockDraft}
    (hd : d.dominators = w.builder.dominatorsOf w.current) (hps : d.parents = [w.current])
    (hj : d.join = .loop → kind = .loop) {r : BlockId × State}
    (hr : r = (w.builder.openJoin kind).addBlock d) :
    Opens F kind w ⟨r.2, r.1⟩ ∧ r.2.view.join r.1 = d.join := by
  obtain ⟨hs₁, hspan₁, hgraph, hsize₁, hno⟩ := h.sound.openJoin kind
  have hkinds₁ : (w.builder.openJoin kind).contexts.map (·.kind) = kind :: kinds w := rfl
  generalize w.builder.openJoin kind = s₁ at *
  have hvalid : (s₁.view.graph w.current).isSome := by
    rw [hgraph]
    exact h.isSome_current
  have hdoms₁ : s₁.view.doms w.current = w.builder.view.doms w.current := by
    rw [View.doms, View.doms, hgraph]
  obtain ⟨hs₂, -, hspan₂, hid, hsize₂, -, hdoms₂, hparents₂, hjoin₂, hframe₂⟩ :=
    hs₁.addBlock (.below hvalid (by rw [hd, dominatorsOf_eq, hdoms₁]) hps) fun hl => hno (hj hl)
  have hkinds₂ : (s₁.addBlock d).2.contexts.map (·.kind) = kind :: kinds w :=
    (congrArg (·.2.2.2) hframe₂ : (s₁.addBlock d).2.contexts.map (·.kind) = _).trans hkinds₁
  subst hr
  rw [hsize₁] at hid hdoms₂ hparents₂ hjoin₂
  rw [hdoms₁] at hdoms₂
  refine ⟨⟨⟨?_, ?_⟩, (hspan₁ _ _).trans (hspan₂ w.current (by simp [hps]))
    (Nat.le_of_eq hsize₁.symm) (Int.le_refl _), hid, ?_, ?_, hkinds₂⟩, ?_⟩
  · show Sound (floorAt _ (s₁.addBlock d).2) _
    rw [floorAt_open hkinds₂]
    exact hs₂
  · show (s₁.addBlock d).1 + 1 = ((s₁.addBlock d).2.view.size : BlockId)
    rw [hid, hsize₂, hsize₁]
    rfl
  · show (s₁.addBlock d).2.view.doms (s₁.addBlock d).1 = (s₁.addBlock d).1 :: _
    rw [hid]
    exact hdoms₂
  · show (s₁.addBlock d).2.view.parents (s₁.addBlock d).1 = _
    rw [hid, hparents₂, hps]
  · rw [hid]
    exact hjoin₂

/-- A slot that holds the target of a branch: the second of any branch, and each of a jump. -/
theorem isTarget_of_slot {V : View} {s : State} {branch : InstId} {slot : Int} {side : Side}
    {i : Instruction} (hslot : slot = 1 ∨ ∃ i, V.insts branch = some i ∧ i.op = .bra)
    (g : View.Grows 0 V s.view) (hi : s.inst? branch = some i) (hop : i.op.isBranch = true)
    (hside : Side.ofIndex? slot = some side) : i.isTarget side = true := by
  rcases hslot with rfl | ⟨i₀, hi₀, hbra⟩
  · cases hside
    simp [Instruction.isTarget, hop]
  · obtain ⟨i₁, hi₁, hop₁, -⟩ := g.inst hi₀
    obtain ⟨i₂, hi₂, -, rfl⟩ := inst?_of_view hi₁
    cases hi.symm.trans hi₂
    have hop₁ : i.op = .bra := (show (face i).op = i₀.op from hop₁).trans hbra
    simp [Instruction.isTarget, hop₁, Opcode.isBranch]

/-- An `if` is closed: its join is made, a branch waits for it, the variables of the context `c` are
merged there, beginning with state `s`, and the branches are resolved. -/
structure ClosesIf (floor : BlockId) (d : BlockDraft) (id : InstId) (side : Side)
    (w : Walk) (s : State) (c : JoinContext) (w' : Walk) : Prop where
  current : w'.current = (w.builder.addBlock d).1
  branch : ∃ i, (w.builder.addBlock d).2.inst? id = some i ∧ i.isTarget side = true
  popped : ∃ rest, (w.builder.addBlock d).2.contexts = c :: rest ∧
    s = { (w.builder.addBlock d).2.defer id side w'.current with contexts := rest }
  sound : Sound floor s
  view : s.view = (w.builder.addBlock d).2.view
  valid : (s.view.graph w'.current).isSome
  builder : w'.builder = (s.reconcileAll w'.current c.touched).resolveBranches

theorem closes_closeIf {floor : BlockId} {d : BlockDraft} {pre : BlockId}
    {branch : InstId} {slot : Int} (h : Sound floor w₁.builder) (hat : Attaches w₁.builder pre d)
    (hjoin : d.join ≠ .loop) (hslot : slot = 1 ∨ ∃ i, w₁.builder.view.insts branch = some i ∧
      i.op = .bra) :
    Yields (closeIf d branch slot) w₁ fun _ w' => ∃ side s c, Side.ofIndex? slot = some side ∧
      ClosesIf floor d branch side w₁ s c w' := by
  refine yields_closeIf fun r hr i side c rest hi hop hside hc => ?_
  obtain ⟨hs₂, hg₂, -, hid, -, hvalid, -⟩ := h.addBlock hat fun hl => absurd hl hjoin
  subst hr
  have htarget := isTarget_of_slot hslot (hg₂ 0) hi hop hside
  have hs₃ := hs₂.defer hi htarget hvalid (hid ▸ h.laid.layout.graph.size_ne_entry)
  have hview₃ := view_defer hi htarget (w₁.builder.addBlock d).1
  have hctx₃ := contexts_defer (w₁.builder.addBlock d).2 branch side (w₁.builder.addBlock d).1
  exact ⟨side,
    { (w₁.builder.addBlock d).2.defer branch side (w₁.builder.addBlock d).1 with contexts := rest },
    c, hside, rfl, ⟨i, hi, htarget⟩, ⟨rest, hctx₃ ▸ hc, rfl⟩, hs₃.withContexts rest, hview₃,
    hview₃ ▸ hvalid, rfl⟩

/-- Closing an `if` goes on in its join, below the block in front of it. -/
theorem ready_closeIf {kind : JoinKind} {d : BlockDraft} {pre : BlockId} {branch : InstId}
    {slot : Int} (h : Ready (floorAt F w.builder) w₁) (hk : kinds w₁ = kind :: kinds w)
    (hat : Attaches w₁.builder pre d) (hjoin : d.join ≠ .loop)
    (hslot : slot = 1 ∨ ∃ i, w₁.builder.view.insts branch = some i ∧ i.op = .bra) :
    Yields (closeIf d branch slot) w₁ fun _ w' => Ready F w' ∧
      (∀ b₀, View.Grows b₀ w₁.builder.view w'.builder.view) ∧
      (∀ b₀, (∀ q ∈ d.parents, b₀ ≤ q) → Spans w₁.builder.view.size b₀ w₁.builder w'.builder) ∧
      w'.current = w₁.builder.view.size ∧
      w'.builder.view.doms w'.current = w'.current :: w₁.builder.view.doms pre ∧
      kinds w' = kinds w := by
  have hsound := h.sound
  rw [floorAt_open hk] at hsound
  refine (closes_closeIf hsound hat hjoin hslot).imp ?_
  rintro _ w' ⟨side, s, c, -, hcl⟩
  obtain ⟨-, hg₂, hspan₂, hid, hsize₂, -, hdoms₂, -, -, hframe₂⟩ :=
    hsound.addBlock hat fun hl => absurd hl hjoin
  obtain ⟨rest, hc, hs⟩ := hcl.popped
  have hcur := hcl.current.trans hid
  have hkinds : s.contexts.map (·.kind) = kinds w := by
    have hall : (c :: rest).map (·.kind) = kind :: kinds w := by
      rw [← hc]
      exact (congrArg (·.2.2.2) hframe₂ : (w₁.builder.addBlock d).2.contexts.map (·.kind) = _).trans
        hk
    rw [hs]
    exact (List.cons.inj hall).2
  have hrec := hcl.sound.laid.reconcileAll hcl.valid c.touched
  have hs₅ := hcl.sound.works hrec
  have hall := hrec.trans (hs₅.laid.resolveBranches hs₅.deferrals)
  rw [← hcl.builder] at hall
  refine ⟨⟨?_, ?_⟩, fun b₀ => (hg₂ b₀).trans (hcl.view ▸ hall.grows b₀) (Int.le_refl _),
    fun b₀ hb₀ => ?_, hcur, ?_, ?_⟩
  · exact sound_settle (hcl.sound.works hall) ((congrArg (·.2.2.2) hall.frame).trans hkinds)
  · rw [hall.size, hcl.view, hsize₂, hcur]
    rfl
  · have hm : s.memory = (w₁.builder.addBlock d).2.memory := by
      rw [hs]
      exact memory_defer ..
    exact ((hspan₂ b₀ hb₀).trans (.of_view hcl.view hm) (Nat.le_refl _) (Int.le_refl _)).trans
      (.of_works hall) (Nat.le_refl _) (Int.le_refl _)
  · rw [(hall.grows 0).doms_eq hcl.valid, hcl.view, hcur]
    exact hdoms₂
  · exact (congrArg (·.2.2.2) hall.frame).trans hkinds

/-- A block is entered while a join is open. -/
theorem ready_addBlock {kind : JoinKind} {ks : List JoinKind} {p : BlockId} {d : BlockDraft}
    {r : BlockId × State} (h : Ready F w) (hk : kinds w = kind :: ks)
    (hp : (w.builder.view.graph p).isSome) (hd : d.dominators = w.builder.view.doms p)
    (hps : d.parents = [p]) (hjoin : d.join ≠ .loop) (hr : r = w.builder.addBlock d) :
    Ready F ⟨r.2, r.1⟩ ∧ (∀ b₀, View.Grows b₀ w.builder.view r.2.view) ∧
      (∀ b₀ ≤ p, Spans w.builder.view.size b₀ w.builder r.2) ∧
      r.1 = w.builder.view.size ∧ r.2.view.doms r.1 = r.1 :: w.builder.view.doms p ∧
      kinds ⟨r.2, r.1⟩ = kind :: ks := by
  have hsound := h.sound
  rw [floorAt_open hk] at hsound
  obtain ⟨hs, hg, hspan, hid, hsize, -, hdoms, -, -, hframe⟩ :=
    hsound.addBlock (.below hp hd hps) fun hl => absurd hl hjoin
  have hkinds : (w.builder.addBlock d).2.contexts.map (·.kind) = kind :: ks :=
    (congrArg (·.2.2.2) hframe : (w.builder.addBlock d).2.contexts.map (·.kind) = _).trans hk
  subst hr
  refine ⟨⟨?_, ?_⟩, hg, fun b₀ hb₀ => hspan b₀ (by simpa [hps] using hb₀), hid, ?_, hkinds⟩
  · show Sound (floorAt F (w.builder.addBlock d).2) _
    rw [floorAt_open hkinds]
    exact hs
  · show (w.builder.addBlock d).1 + 1 = ((w.builder.addBlock d).2.view.size : BlockId)
    rw [hid, hsize]
    rfl
  · rw [hid]
    exact hdoms

/-- A branch is deferred while lowering goes on. -/
theorem ready_defer {id : InstId} {i : Instruction} {side : Side} {target : BlockId} (h : Ready F w)
    (hi : w.builder.inst? id = some i) (hside : i.isTarget side = true)
    (ht : (w.builder.view.graph target).isSome) (hentry : target ≠ entryBlock) :
    Ready F { w with builder := w.builder.defer id side target } ∧
      (w.builder.defer id side target).view = w.builder.view ∧
      kinds { w with builder := w.builder.defer id side target } = kinds w := by
  have hs := h.sound.defer hi hside ht hentry
  have hview := view_defer hi hside target
  have hctx := contexts_defer w.builder id side target
  have hkinds : kinds { w with builder := w.builder.defer id side target } = kinds w := by
    rw [kinds, kinds, hctx]
  refine ⟨⟨?_, ?_⟩, hview, hkinds⟩
  · rw [show floorAt F ({ w with builder := w.builder.defer id side target } : Walk).builder = _
      from
      floorAt_of_kinds hkinds (by rw [hview])]
    exact hs
  · rw [hview]
    exact h.newest

/-- Lowering is inside a construct that was opened in front of block `w.current`. -/
structure Inside (F : BlockId) (kind : JoinKind) (w w' : Walk) (ms : List Moment) : Prop where
  ready : Ready (floorAt F w.builder) w'
  spans : Spans w.builder.view.size w.current w.builder w'.builder
  current : w.builder.view.size ≤ w'.current
  kinds : kinds w' = kind :: kinds w
  moments : ∀ m ∈ ms, Seen w' m

theorem Opens.inside {kind : JoinKind} (h : Opens F kind w w₁) : Inside F kind w w₁ [] :=
  ⟨h.ready, h.spans, Int.le_of_eq h.current.symm, h.kinds, nofun⟩

namespace Inside

variable {kind : JoinKind} {w₂ : Walk} {ms ns : List Moment}

theorem extend (h : Inside F kind w w₁ ms) (h' : Extends (floorAt F w.builder) w₁ w₂ ns)
    (hw : w.current + 1 = w.builder.view.size) : Inside F kind w w₂ (ms ++ ns) := by
  have hle : w.current ≤ w₁.current := by
    have := h.current
    lia
  refine ⟨h'.ready, h.spans.trans h'.spans h.spans.grows.size hle,
    Int.le_trans h.current h'.current, h'.kinds.trans h.kinds, fun m hm => ?_⟩
  rcases mem_append.mp hm with hm | hm
  · exact (h.moments m hm).mono h'.spans.grows (Int.le_refl _) h'.current
  · exact h'.moments m hm

/-- The block in front of a construct is still there, with the dominators it had. -/
theorem front (h : Inside F kind w w₁ ms) (hw : Ready F w) :
    (w₁.builder.view.graph w.current).isSome ∧
      w₁.builder.view.doms w.current = w.builder.view.doms w.current := by
  have hvalid := hw.isSome_current
  exact ⟨h.spans.grows.isSome hvalid, h.spans.grows.doms_eq hvalid⟩

end Inside

theorem opens_openIf (scope : Scope) (kind : JoinKind) (cond : Relation) (h : Ready F w) :
    Yields (openIf scope kind cond) w fun f w' => ∃ w₁,
      Computes F w w₁ (relationMoments scope cond w) ∧ Opens F kind w₁ w' ∧ f.pre = w₁.current ∧
        f.dominators = w₁.builder.view.doms w₁.current := by
  refine yields_openIf ((computes_lowerRelation scope cond h).imp fun branch w₁ hc doms hd r hr =>
    ?_)
  refine ⟨w₁, hc, (opens_block (hc.ready h) kind hd rfl (by nofun) hr).1, rfl, ?_⟩
  rw [hd, dominatorsOf_eq]

/-- A join can be made below the block in front of a construct, `w.current`: it is entered from
blocks below that one, which meet nowhere else. -/
structure Joinable (w w₁ : Walk) (d : BlockDraft) : Prop where
  doms : d.dominators = w.builder.view.doms w.current
  parents : ∀ q ∈ d.parents, (w₁.builder.view.graph q).isSome ∧ w.current ≤ q ∧
    ∀ x ∈ w.builder.view.doms w.current, x ∈ w₁.builder.view.doms q
  meet : ∀ q ∈ d.parents, ∀ r ∈ d.parents, q ≠ r → ∀ x ∈ w₁.builder.view.doms q,
    x ∈ w₁.builder.view.doms r → x ∈ w.builder.view.doms w.current
  past : ∀ x ∉ w.builder.view.doms w.current, ∃ q ∈ d.parents, x ∉ w₁.builder.view.doms q
  nodup : d.parents.Nodup
  join : d.join ≠ .loop

theorem Inside.attaches {kind : JoinKind} {d : BlockDraft} {ms : List Moment}
    (hin : Inside F kind w w₁ ms) (h : Ready F w) (hj : Joinable w w₁ d) :
    Attaches w₁.builder w.current d := by
  obtain ⟨hfront, hsame⟩ := hin.front h
  obtain ⟨hdoms, hps, hmeet, hpast, hnodup, -⟩ := hj
  rw [← hsame] at hdoms hps hmeet hpast
  exact ⟨hfront, hdoms, fun q hq => ⟨(hps q hq).1, (hps q hq).2.2⟩, hmeet, hpast, hnodup⟩

/-- Closing an `if` makes its join. -/
theorem Inside.closes {kind : JoinKind} {d : BlockDraft} {branch : InstId} {slot : Int}
    {ms : List Moment} (hin : Inside F kind w w₁ ms) (h : Ready F w) (hj : Joinable w w₁ d)
    (hslot : slot = 1 ∨ ∃ i, w₁.builder.view.insts branch = some i ∧ i.op = .bra) :
    Yields (closeIf d branch slot) w₁ fun _ w' => ∃ side s c, Side.ofIndex? slot = some side ∧
      ClosesIf (floorAt F w.builder) d branch side w₁ s c w' := by
  have hsound := hin.ready.sound
  rw [floorAt_open hin.kinds] at hsound
  exact closes_closeIf hsound (hin.attaches h hj) hj.join hslot

/-- Closing an `if` goes on below the block in front of it. -/
theorem extends_closeIf {kind : JoinKind} {d : BlockDraft} {branch : InstId} {slot : Int}
    {ms : List Moment} (hin : Inside F kind w w₁ ms) (h : Ready F w) (hj : Joinable w w₁ d)
    (hslot : slot = 1 ∨ ∃ i, w₁.builder.view.insts branch = some i ∧ i.op = .bra) :
    Yields (closeIf d branch slot) w₁ fun _ w' => Extends F w w' ms := by
  refine (ready_closeIf hin.ready hin.kinds (hin.attaches h hj) hj.join hslot).imp ?_
  rintro _ w' ⟨hready, hg, hspan, hcur, hdoms', hkinds⟩
  have hsize := hin.spans.grows.size
  have hle : w.current ≤ w₁.current ∧ w₁.current ≤ w'.current := by
    have := hin.current
    have := h.newest
    have := hin.ready.newest
    rw [hcur]
    constructor <;> lia
  refine ⟨hready, hin.spans.trans (hspan w.current fun q hq => (hj.parents q hq).2.1) hsize
    (Int.le_refl _), Int.le_trans hle.1 hle.2,
    ⟨[w'.current], by rw [hdoms', (hin.front h).2]; rfl, fun x hx => ?_⟩, hkinds,
    fun m hm => (hin.moments m hm).mono (hg w₁.current) (Int.le_refl _) hle.2⟩
  rw [mem_singleton.mp hx, hcur]
  exact Int.ofNat_le.mpr hsize

/-- The last block of a part of a construct is below the block in front of it. -/
theorem Extends.end_below {w₂ : Walk} {ms : List Moment} {F' : BlockId} (h : Extends F' w₁ w₂ ms)
    (h₁ : Ready F' w₁)
    (hd : w₁.builder.view.doms w₁.current = w₁.current :: w.builder.view.doms w.current) :
    (∀ x ∈ w.builder.view.doms w.current, x ∈ w₂.builder.view.doms w₂.current) ∧
    ∀ x ∈ w₂.builder.view.doms w₂.current, x ∈ w.builder.view.doms w.current ∨ w₁.current ≤ x := by
  obtain ⟨X, hX, hXs⟩ := h.below
  rw [hX, hd]
  refine ⟨fun x hx => mem_append_right _ (mem_cons_of_mem _ hx), fun x hx => ?_⟩
  rcases mem_append.mp hx with hx | hx
  · have := hXs x hx
    have := h₁.newest
    exact .inr (by lia)
  · rcases mem_cons.mp hx with rfl | hx
    · exact .inr (Int.le_refl _)
    · exact .inl hx

/-- The end of the first part of an `if` and the block in front of it can be joined. -/
theorem joinable_ifThen {kind : JoinKind} {w₂ w₃ : Walk} {ms : List Moment} {d : BlockDraft}
    (h : Ready F w) (hopen : Opens F kind w w₂) (hpart : Extends (floorAt F w.builder) w₂ w₃ ms)
    (hdoms : d.dominators = w.builder.view.doms w.current)
    (hps : d.parents = [w₃.current, w.current]) (hjoin : d.join ≠ .loop) : Joinable w w₃ d := by
  have hin := hopen.inside.extend hpart h.newest
  obtain ⟨hbelow, -⟩ := hpart.end_below hopen.ready hopen.doms
  have hlt : w.current < w₃.current := by
    have := hin.current
    have := h.newest
    lia
  obtain ⟨hfront, hsame⟩ := hin.front h
  refine ⟨hdoms, fun q hq => ?_, fun q hq r hr hne => ?_,
    fun x hx => ⟨w.current, by simp [hps], ?_⟩, ?_, hjoin⟩
  · rw [hps] at hq
    rcases mem_cons.mp hq with rfl | hq
    · exact ⟨hin.ready.isSome_current, Int.le_of_lt hlt, hbelow⟩
    · rw [mem_singleton.mp hq, hsame]
      exact ⟨hfront, Int.le_refl _, fun x hx => hx⟩
  · rw [hps] at hq hr
    rw [← hsame]
    rcases mem_cons.mp hq with rfl | hq
    · rcases mem_cons.mp hr with rfl | hr
      · exact absurd rfl hne
      · rw [mem_singleton.mp hr]
        exact fun x _ hx => hx
    · rw [mem_singleton.mp hq]
      exact fun x hx _ => hx
  · rwa [hsame]
  · rw [hps]
    exact nodup_cons.mpr ⟨fun hm => Int.ne_of_gt hlt (mem_singleton.mp hm), pairwise_singleton ..⟩

theorem extends_lowerIfThen (scope : Scope) (cond : Relation) {thenPart : Lower Unit}
    {ms : Walk → List Moment} (h : Ready F w) (hthen : Extending thenPart ms) :
    Yields (lowerIfThen scope cond thenPart) w fun _ w' => Extends F w w'
      (relationMoments scope cond w ++ follow (openIf scope .ifThen cond w) fun _ w => ms w) := by
  refine .bind ((opens_openIf scope .ifThen cond h).self.imp ?_)
  rintro f w₂ ⟨⟨w₁, hc, hopen, hpre, hdoms⟩, heq⟩
  refine .bind (yields_within ((hthen hopen.ready).imp fun _ w₃ hpart => ?_) _)
  have h₁ := hc.ready h
  have hjoin : Joinable w₁ w₃
      { kind := .join, join := .ifThen, dominators := f.dominators,
        parents := [w₃.current, f.pre] } :=
    joinable_ifThen h₁ hopen hpart hdoms (by rw [hpre]) (by intro he; cases he)
  refine .bind (yields_current ((extends_closeIf (hopen.inside.extend hpart h₁.newest) h₁ hjoin
    (.inl rfl)).imp fun _ w' hw' => ?_))
  rw [follow_ok heq]
  exact (hc.extends h).trans hw'

/-- What lowering an `if` without `else` goes through. -/
theorem lowerIfThen_cases (scope : Scope) (cond : Relation) {thenPart : Lower Unit}
    {ms : Walk → List Moment} (h : Ready F w) (hthen : Extending thenPart ms) :
    Yields (lowerIfThen scope cond thenPart) w fun _ w' => ∃ branch w₁ r w₂ s c,
      lowerRelation scope cond w = .ok branch w₁ ∧
      r = (w₁.builder.openJoin .ifThen).addBlock
        { kind := .thenPart, dominators := w₁.builder.dominatorsOf w₁.current,
          parents := [w₁.current] } ∧
      thenPart ⟨r.2, r.1⟩ = .ok ⟨⟩ w₂ ∧
      ClosesIf (floorAt F w₁.builder)
        { kind := .join, join := .ifThen, dominators := w₁.builder.dominatorsOf w₁.current,
          parents := [w₂.current, w₁.current] } branch .y w₂ s c w' := by
  refine .bind (yields_openIf ((computes_lowerRelation scope cond h).self.imp ?_))
  rintro branch w₁ ⟨hc, hrel⟩ doms rfl r hr
  have h₁ := hc.ready h
  have hopen := (opens_block h₁ .ifThen rfl rfl (by intro he; cases he) hr).1
  refine .bind (yields_within ((hthen hopen.ready).self.imp ?_) _)
  rintro _ w₂ ⟨hpart, heq⟩
  have hjoin : Joinable w₁ w₂
      { kind := .join, join := .ifThen, dominators := w₁.builder.dominatorsOf w₁.current,
        parents := [w₂.current, w₁.current] } :=
    joinable_ifThen h₁ hopen hpart (dominatorsOf_eq _ _) rfl (by intro he; cases he)
  refine .bind (yields_current (((hopen.inside.extend hpart h₁.newest).closes h₁ hjoin
    (.inl rfl)).imp ?_))
  rintro _ w' ⟨side, s, c, hside, hcl⟩
  cases hside
  exact ⟨branch, w₁, r, w₂, s, c, hrel, hr, heq, hcl⟩

/-- The second part of an `if` is entered from the block in front of it. -/
theorem inside_openElse {f : IfFrame} {ms : List Moment} (hin : Inside F .ifElse w w₁ ms)
    (h : Ready F w) (hpre : f.pre = w.current)
    (hdoms : f.dominators = w.builder.view.doms w.current) :
    Yields (openElse f) w₁ fun g w' => Inside F .ifElse w w' ms ∧
      View.Grows w.current w₁.builder.view w'.builder.view ∧
      w₁.builder.view.size ≤ w'.current ∧ g.thenBottom = w₁.current ∧ g.dominators = f.dominators ∧
      w'.builder.view.doms w'.current = w'.current :: w.builder.view.doms w.current ∧
      ∃ i, w'.builder.view.insts g.bra = some i ∧ i.op = .bra := by
  refine yields_openElse ((computes_emitHere hin.ready .bra nofun
    nofun nofun (boundedSource_absent _) (boundedSource_absent _)).imp ?_)
  rintro bra w₂ ⟨hc, -, hbra⟩ r hr i hi hop
  have hin₂ : Inside F .ifElse w w₂ ms :=
    append_nil ms ▸ hin.extend (hc.extends hin.ready) h.newest
  obtain ⟨hfront, hsame⟩ := hin₂.front h
  obtain ⟨hr₃, hg₃, hspan₃, hid, hdoms₃, hkinds₃⟩ :=
    ready_addBlock hin₂.ready hin₂.kinds hfront (by rw [hsame]; exact hdoms)
      (by rw [hpre]) (by nofun) hr
  have hside : i.isTarget .y = true := by
    simp [Instruction.isTarget, hop]
  obtain ⟨hr₄, hview₄, hkinds₄⟩ := @ready_defer _ _ _ _ _ r.1 hr₃ hi hside
    hr₃.isSome_current (hid ▸ hin₂.ready.sound.laid.layout.graph.size_ne_entry)
  dsimp only at hr₄ hview₄ hkinds₄
  have hsize₂ : w₂.builder.view.size = w₁.builder.view.size := hc.works.size
  have hcur : w₂.current ≤ r.1 := by
    have := hin₂.ready.newest
    rw [hid]
    lia
  refine ⟨⟨hr₄, (hin₂.spans.trans (hspan₃ _ (Int.le_refl _)) hin₂.spans.grows.size
    (Int.le_refl _)).trans (.of_view hview₄ (memory_defer ..)) (Nat.le_refl _)
    (Int.le_refl _), ?_, hkinds₄.trans hkinds₃, fun m hm => ?_⟩, ?_, ?_, rfl, rfl, ?_, ?_⟩
  · exact Int.le_trans hin₂.current hcur
  · exact (hin₂.moments m hm).mono (by rw [hview₄]; exact hg₃ w₂.current) (Int.le_refl _) hcur
  · rw [hview₄]
    exact (hc.works.grows _).trans (hg₃ _) (Int.le_refl _)
  · show (w₁.builder.view.size : BlockId) ≤ r.1
    exact Int.le_of_eq (by rw [hid, hsize₂])
  · rw [hview₄, ← hsame]
    exact hdoms₃
  · obtain ⟨i₁, hi₁, hop₁⟩ := hbra rfl
    obtain ⟨i₂, hi₂, hop₂, -⟩ := (hg₃ 0).inst hi₁
    rw [hview₄]
    exact ⟨i₂, hi₂, hop₂.trans hop₁⟩

/-- The ends of the two parts of an `if` can be joined: they meet in no block below the one in front
of them. -/
theorem joinable_ifElse {w₂ w₃ w₄ w₅ : Walk} {ms ns : List Moment} {d : BlockDraft} (h : Ready F w)
    (hopen : Opens F .ifElse w w₂) (hpart : Extends (floorAt F w.builder) w₂ w₃ ms)
    (hin : Inside F .ifElse w w₄ ms) (hg : View.Grows w.current w₃.builder.view w₄.builder.view)
    (hcur : w₃.builder.view.size ≤ w₄.current)
    (htop : w₄.builder.view.doms w₄.current = w₄.current :: w.builder.view.doms w.current)
    (hpart' : Extends (floorAt F w.builder) w₄ w₅ ns)
    (hdoms : d.dominators = w.builder.view.doms w.current)
    (hps : d.parents = [w₃.current, w₅.current]) (hjoin : d.join ≠ .loop) : Joinable w w₅ d := by
  have hend := hin.extend hpart' h.newest
  have hin₃ := hopen.inside.extend hpart h.newest
  obtain ⟨hbelow, -⟩ := hpart.end_below hopen.ready hopen.doms
  obtain ⟨hbelow', hnew⟩ := hpart'.end_below hin.ready htop
  have hg₅ := hg.trans hpart'.spans.grows (by
    have := hin.current
    have := h.newest
    lia)
  have hvalid₃ := hin₃.ready.isSome_current
  have hdoms₃ := hg₅.doms_eq hvalid₃
  have hlt : w₃.current < w₅.current := by
    have := hpart'.current
    have := hin₃.ready.newest
    lia
  have hold : ∀ x ∈ w₃.builder.view.doms w₃.current, x < w₄.current := by
    intro x hx
    have := (hin₃.ready.sound.laid.layout.graph.le_of_mem_doms hx).2
    have := hin₃.ready.newest
    lia
  have hmeet : ∀ x ∈ w₃.builder.view.doms w₃.current, x ∈ w₅.builder.view.doms w₅.current →
      x ∈ w.builder.view.doms w.current := by
    intro x hx hx'
    exact (hnew x hx').resolve_right (Int.not_le.mpr (hold x hx))
  refine ⟨hdoms, fun q hq => ?_, fun q hq r hr hne => ?_, fun x hx => ?_, ?_, hjoin⟩
  · have hle : w.current ≤ w₃.current := by
      have := hin₃.current
      have := h.newest
      lia
    rw [hps] at hq
    rcases mem_cons.mp hq with rfl | hq
    · exact ⟨hg₅.isSome hvalid₃, hle, hdoms₃ ▸ hbelow⟩
    · rw [mem_singleton.mp hq]
      exact ⟨hend.ready.isSome_current, by lia, hbelow'⟩
  · rw [hps] at hq hr
    rcases mem_cons.mp hq with rfl | hq
    · rcases mem_cons.mp hr with rfl | hr
      · exact absurd rfl hne
      · rw [mem_singleton.mp hr, hdoms₃]
        exact hmeet
    · rcases mem_cons.mp hr with rfl | hr
      · rw [mem_singleton.mp hq, hdoms₃]
        exact fun x hx hx' => hmeet x hx' hx
      · exact absurd ((mem_singleton.mp hq).trans (mem_singleton.mp hr).symm) hne
  · by_cases hx₃ : x ∈ w₃.builder.view.doms w₃.current
    · exact ⟨w₅.current, by simp [hps], fun hx₅ => hx (hmeet x hx₃ hx₅)⟩
    · refine ⟨w₃.current, by simp [hps], ?_⟩
      rwa [hdoms₃]
  · rw [hps]
    exact nodup_cons.mpr ⟨fun hm => Int.ne_of_lt hlt (mem_singleton.mp hm), pairwise_singleton ..⟩

theorem extends_lowerIfElse (scope : Scope) (cond : Relation) {thenPart elsePart : Lower Unit}
    {ms ns : Walk → List Moment} (h : Ready F w) (hthen : Extending thenPart ms)
    (helse : Extending elsePart ns) :
    Yields (lowerIfElse scope cond thenPart elsePart) w fun _ w' => Extends F w w'
      (relationMoments scope cond w ++ follow (openIf scope .ifElse cond w) fun f w =>
        ms w ++ follow ((do thenPart; openElse f) w) fun _ w => ns w) := by
  refine .bind ((opens_openIf scope .ifElse cond h).self.imp ?_)
  rintro f w₂ ⟨⟨w₁, hc, hopen, hpre, hdoms⟩, heq⟩
  refine .bind (yields_within ((hthen hopen.ready).self.imp fun _ w₃ ⟨hpart, heq₁⟩ => ?_) _)
  have h₁ := hc.ready h
  have hin := hopen.inside.extend hpart h₁.newest
  refine .bind ((inside_openElse hin h₁ hpre hdoms).self.imp ?_)
  rintro g w₄ ⟨⟨hin', hg, hcur, hbottom, hdoms', htop, hbra⟩, heq₂⟩
  refine .bind (yields_within ((helse hin'.ready).imp fun _ w₅ hpart' => ?_) _)
  have hend := hin'.extend hpart' h₁.newest
  have hjoin : Joinable w₁ w₅ { kind := .join, join := .ifElse, dominators := g.dominators,
                                parents := [g.thenBottom, w₅.current] } :=
    joinable_ifElse h₁ hopen hpart hin' hg hcur htop hpart' (hdoms'.trans hdoms) (by rw [hbottom])
      (by intro he; cases he)
  refine .bind (yields_current ((extends_closeIf hend h₁ hjoin (.inr ?_)).imp fun _ w' hw' => ?_))
  · obtain ⟨i, hi, hop⟩ := hbra
    obtain ⟨i', hi', hop', -⟩ := hpart'.spans.grows.inst hi
    exact ⟨i', hi', hop'.trans hop⟩
  · have hboth : (do thenPart; openElse f) w₂ = .ok g w₄ := by
      show EStateM.bind thenPart (fun _ => openElse f) w₂ = _
      rw [EStateM.bind, heq₁]
      exact heq₂
    rw [follow_ok heq, follow_ok hboth]
    exact (hc.extends h).trans hw'

/-- What lowering an `if` with `else` goes through. -/
theorem lowerIfElse_cases (scope : Scope) (cond : Relation) {thenPart elsePart : Lower Unit}
    {ms ns : Walk → List Moment} (h : Ready F w) (hthen : Extending thenPart ms)
    (helse : Extending elsePart ns) :
    Yields (lowerIfElse scope cond thenPart elsePart) w
      fun _ w' => ∃ branch w₁ r w₂ bra w₃ r' w₄ s c, lowerRelation scope cond w = .ok branch w₁ ∧
      r = (w₁.builder.openJoin .ifElse).addBlock
        { kind := .thenPart, dominators := w₁.builder.dominatorsOf w₁.current,
          parents := [w₁.current] } ∧
      thenPart ⟨r.2, r.1⟩ = .ok ⟨⟩ w₂ ∧ emitHere .bra {} {} w₂ = .ok bra w₃ ∧
      r' = w₃.builder.addBlock
        { kind := .elsePart, dominators := w₁.builder.dominatorsOf w₁.current,
          parents := [w₁.current] } ∧
      (∃ i, r'.2.inst? branch = some i ∧ i.op.isBranch = true) ∧
      elsePart ⟨r'.2.defer branch .y r'.1, r'.1⟩ = .ok ⟨⟩ w₄ ∧
      Inside F .ifElse w₁ ⟨r'.2.defer branch .y r'.1, r'.1⟩ (ms ⟨r.2, r.1⟩) ∧
      ClosesIf (floorAt F w₁.builder)
        { kind := .join, join := .ifElse, dominators := w₁.builder.dominatorsOf w₁.current,
          parents := [w₂.current, w₄.current] } bra.id .x w₄ s c w' := by
  refine .bind (yields_openIf ((computes_lowerRelation scope cond h).self.imp ?_))
  rintro branch w₁ ⟨hc, hrel⟩ doms rfl r hr
  have h₁ := hc.ready h
  have hopen := (opens_block h₁ .ifElse rfl rfl (by intro he; cases he) hr).1
  refine .bind (yields_within ((hthen hopen.ready).self.imp ?_) _)
  rintro _ w₂ ⟨hpart, heq⟩
  have hin := hopen.inside.extend hpart h₁.newest
  have htake : Yields (openElse ⟨branch, w₁.current, w₁.builder.dominatorsOf w₁.current⟩)
    w₂ fun g w' =>
      ∃ bra w₃ r', emitHere .bra {} {} w₂ = .ok bra w₃ ∧
        r' = w₃.builder.addBlock
          { kind := .elsePart, dominators := w₁.builder.dominatorsOf w₁.current,
            parents := [w₁.current] } ∧
        (∃ i, r'.2.inst? branch = some i ∧ i.op.isBranch = true) ∧ g.bra = bra.id ∧
        w' = ⟨r'.2.defer branch .y r'.1, r'.1⟩ :=
    yields_openElse <| .of_ok fun bra w₃ hbra r' hr' i hi hop => ⟨bra, w₃, r', hbra, hr',
      ⟨i, hi, hop⟩, rfl, rfl⟩
  refine .bind (((inside_openElse hin h₁ rfl (dominatorsOf_eq _ _)).and htake).imp ?_)
  rintro g _ ⟨⟨hin', hg, hcur, hbottom, hdoms', htop, hbra⟩, bra, w₃, r', hemit, hr',
    hi, hgbra, rfl⟩
  refine .bind (yields_within ((helse hin'.ready).self.imp ?_) _)
  rintro _ w₄ ⟨hpart', heq'⟩
  have hjoin : Joinable w₁ w₄ { kind := .join, join := .ifElse, dominators := g.dominators,
                                parents := [g.thenBottom, w₄.current] } :=
    joinable_ifElse h₁ hopen hpart hin' hg hcur htop hpart' (hdoms'.trans (dominatorsOf_eq _ _))
      (by rw [hbottom]) (by intro he; cases he)
  have hslot : ∃ i, w₄.builder.view.insts g.bra = some i ∧ i.op = .bra := by
    obtain ⟨i, hi, hop⟩ := hbra
    obtain ⟨i', hi', hop', -⟩ := hpart'.spans.grows.inst hi
    exact ⟨i', hi', hop'.trans hop⟩
  refine .bind (yields_current (((hin'.extend hpart' h₁.newest).closes h₁ hjoin (.inr hslot)).imp
    ?_))
  rintro _ w' ⟨side, s, c, hside, hcl⟩
  cases hside
  rw [hdoms', hbottom, hgbra] at hcl
  exact ⟨branch, w₁, r, w₂, bra, w₃, r', w₄, s, c, hrel, hr, heq, hemit, hr', hi, heq', hin', hcl⟩

/-- What the header of a loop stays known by while the body is lowered. -/
structure IsHeader (w : Walk) (V : View) (header : BlockId) : Prop where
  eq : header = w.builder.view.size
  join : V.join header = .loop
  parents : V.parents header = [w.current]
  doms : V.doms header = header :: w.builder.view.doms w.current

theorem IsHeader.mono {header : BlockId} {s t : State} {n : Nat} {b₀ : BlockId}
    (h : IsHeader w s.view header) (g : Spans n b₀ s t) (hn : header < n) :
    IsHeader w t.view header := by
  have hvalid := View.isSome_of_join h.join
  exact ⟨h.eq, (g.grows.join_eq hvalid).trans h.join, (g.parents header hn).trans h.parents,
    (g.grows.doms_eq hvalid).trans h.doms⟩

theorem opens_openHeader (h : Ready F w) : Yields openHeader w fun header w' =>
    Opens F .loop w w' ∧ header = w'.current ∧ IsHeader w w'.builder.view header := by
  refine yields_openHeader fun r hr => ?_
  obtain ⟨hopen, hjoin⟩ := opens_block h .loop rfl rfl (fun _ => rfl) hr
  exact ⟨hopen, rfl, hopen.current, hjoin, hopen.parents, hopen.doms⟩

/-- The body of a loop is entered below its header. -/
theorem inside_openLoop (scope : Scope) (cond : Relation) (h : Ready F w) :
    Yields (openLoop scope cond) w fun f w' =>
      Inside F .loop w w' (follow (openHeader w) fun _ w => relationMoments scope cond w) ∧
      IsHeader w w'.builder.view f.header ∧ f.header < w'.current ∧
      w'.builder.view.doms w'.current = w'.current :: w'.builder.view.doms f.header := by
  refine .bind ((opens_openHeader h).self.imp ?_)
  rintro header w₁ ⟨⟨hopen, hcur, hheader⟩, heq⟩
  refine .bind (yields_within ((computes_lowerRelation scope cond hopen.ready).imp ?_) _)
  rintro branch w₂ hc
  have hin := hopen.inside.extend (hc.extends hopen.ready) h.newest
  have hvalid : (w₂.builder.view.graph header).isSome := by
    rw [hcur, ← hc.current]
    exact hin.ready.isSome_current
  have hlt : header < (w₂.builder.view.size : BlockId) :=
    ((hin.ready.sound.laid.layout.graph.valid header).mp hvalid).2
  have hsame : Spans w₂.builder.view.size 0 w₁.builder w₂.builder := .of_works hc.works
  have hheader₂ := hheader.mono hsame hlt
  refine .bind (yields_openBody fun r hr => .pure ?_)
  obtain ⟨hr₃, hg₃, hspan₃, hid, hdoms₃, hkinds₃⟩ :=
    ready_addBlock hin.ready hin.kinds hvalid (dominatorsOf_eq _ _) rfl (by nofun) hr
  have hle : w.current ≤ header := by
    have := h.newest
    rw [hheader.eq]
    lia
  have hcur₃ : w₂.current ≤ r.1 := by
    rw [hid]
    have := hin.ready.newest
    lia
  rw [follow_ok heq]
  refine ⟨⟨hr₃, hin.spans.trans (hspan₃ _ hle) hin.spans.grows.size (Int.le_refl _),
    Int.le_trans hin.current hcur₃, hkinds₃, fun m hm => ?_⟩,
    hheader₂.mono (hspan₃ _ (Int.le_refl _)) hlt, ?_, ?_⟩
  · exact (hin.moments m hm).mono (hg₃ w₂.current) (Int.le_refl _) hcur₃
  · show header < r.1
    rw [hid]
    exact hlt
  · show r.2.view.doms r.1 = r.1 :: r.2.view.doms header
    rw [hdoms₃, (hg₃ 0).doms_eq hvalid]

/-- A loop in front of which lowering was in `w` is lowered up to the end of its body. -/
structure AtBottom (F : BlockId) (w w₁ : Walk) (header : BlockId) (ms : List Moment) : Prop where
  front : Ready F w
  inside : Inside F .loop w w₁ ms
  isHeader : IsHeader w w₁.builder.view header
  bottom : ∀ d ∈ w₁.builder.view.doms header, d ∈ w₁.builder.view.doms w₁.current

theorem atBottom_endBody {f : LoopFrame} {v : Walk} {ms ns : List Moment} (h : Ready F w)
    (hin : Inside F .loop w v ms) (hf : IsHeader w v.builder.view f.header)
    (hlt : f.header < v.current) (hdoms : v.builder.view.doms v.current = v.current ::
      v.builder.view.doms f.header)
    (hpart : Extends (floorAt F w.builder) v w₁ ns) :
    Yields (endBody f) w₁ fun bottom w' => bottom = w'.current ∧ AtBottom F w w' f.header
      (ms ++ ns) := by
  have hf₁ := hf.mono hpart.spans (by have := hin.ready.newest; lia)
  refine yields_endBody ((computes_emitHere hpart.ready .bra nofun
    nofun nofun (boundedSource_absent _) (boundedSource_absent _)).imp ?_)
  rintro bra w₂ ⟨hc, -, hbra⟩ i hi hblk
  have hin₂ : Inside F .loop w w₂ (ms ++ ns) := by
    have hall := (hin.extend hpart h.newest).extend (hc.extends hpart.ready) h.newest
    rwa [append_nil] at hall
  obtain ⟨i₁, hi₁, hop₁⟩ := hbra rfl
  obtain ⟨i₂, hi₂, -, rfl⟩ := inst?_of_view hi₁
  cases hi.symm.trans hi₂
  have hop₁ : i.op = .bra := hop₁
  have hside : i.isTarget .x = true := by
    simp [Instruction.isTarget, hop₁, Opcode.isBranch]
  obtain ⟨hr₃, hview₃, hkinds₃⟩ := ready_defer hin₂.ready hi hside
    (isSome_view_graph.mpr hblk) (hf.eq ▸ h.sound.laid.layout.graph.size_ne_entry)
  have hwork : Spans w₂.builder.view.size 0 w₁.builder w₂.builder := .of_works hc.works
  have hsame : Spans w₂.builder.view.size w₂.current w₂.builder
      (w₂.builder.defer bra.id .x f.header) := .of_view hview₃ (memory_defer ..)
  have hheader : f.header < w₂.builder.view.size := by
    rw [hf.eq]
    have := hin₂.current
    have := hin₂.ready.newest
    lia
  have hle : w.current ≤ w₂.current := by
    have := hin₂.current
    have := h.newest
    lia
  have hf₂ := (hf₁.mono hwork hheader).mono hsame hheader
  refine ⟨hc.current.symm, h, ⟨hr₃, hin₂.spans.trans hsame hin₂.spans.grows.size hle, hin₂.current,
    hkinds₃.trans hin₂.kinds, fun m hm => ?_⟩, hf₂, fun d hd => ?_⟩
  · exact (hin₂.moments m hm).mono (by rw [hview₃]; exact .refl _ _) (Int.le_refl _) (Int.le_refl _)
  · rw [hf₂.doms] at hd
    obtain ⟨X, hX, -⟩ := hpart.below
    show d ∈ (w₂.builder.defer bra.id .x f.header).view.doms w₂.current
    rw [hview₃, hc.current, (hc.works.grows 0).doms_eq hpart.ready.isSome_current, hX,
      hdoms, hf.doms]
    exact mem_append_right _ (mem_cons_of_mem _ hd)

/-- A loop is closed: the edge back to the header leads to state `s`, the variables of the context
`c` are merged at the header, repairing the loop leads to state `u`, the block behind it is made,
and the branch that leaves the header waits for that in state `t`, where the branches are
resolved. -/
structure ClosesLoop (floor : BlockId) (f : LoopFrame) (w : Walk) (s : State)
    (c : JoinContext) (u t : State) (w' : Walk) : Prop where
  popped : ∃ rest, w.builder.contexts = c :: rest ∧
    s = State.link { w.builder with contexts := rest } w.current f.header
  linked : Sound floor s
  valid : (s.view.graph f.header).isSome
  repaired : u = (s.reconcileAll f.header c.touched).repairLoop f.header
  current : w'.current = (u.addExit f.header).1
  made : Sound floor (u.addExit f.header).2
  branch : f.branch = 0 ∧ t = (u.addExit f.header).2 ∨
    ∃ i side, (u.addExit f.header).2.inst? f.branch = some i ∧ i.isTarget side = true ∧
      (i.op.isConditional = true → side = .y) ∧ t = (u.addExit f.header).2.defer f.branch
      side w'.current
  sound : Sound floor t
  view : t.view = (u.addExit f.header).2.view
  contexts : t.contexts = (u.addExit f.header).2.contexts
  builder : w'.builder = t.resolveBranches

namespace ClosesLoop

variable {floor : BlockId} {f : LoopFrame} {w' : Walk} {s t u : State} {c : JoinContext}

/-- Merging and repairing add code only. -/
theorem works (h : ClosesLoop floor f w s c u t w') (hlow : floor ≤ f.header) :
    AddsCode floor s (s.reconcileAll f.header c.touched) ∧ AddsCode floor s u := by
  have hrec := h.linked.laid.reconcileAll h.valid c.touched
  exact ⟨hrec, h.repaired ▸ hrec.trans (hrec.laid.repairLoop hlow (h.linked.works hrec).closed)⟩

end ClosesLoop

/-- The edge back to the header of a loop, and what merging and repairing do behind it. -/
theorem AtBottom.linkBack {header : BlockId} {ms : List Moment} (h : AtBottom F w w₁ header ms)
    (rest : List JoinContext) {s : State} (hs : s = State.link { w₁.builder with contexts := rest }
      w₁.current header) :
    Sound (floorAt F w.builder) s ∧ (s.view.graph header).isSome ∧
      (∀ (n : Nat) b₀, (n : BlockId) ≤ header → b₀ ≤ w₁.current → Spans n b₀ w₁.builder s) ∧
      s.contexts.map (·.kind) = rest.map (·.kind) ∧
      ∀ names, AddsCode (floorAt F w.builder) s
        ((s.reconcileAll header names).repairLoop header) := by
  obtain ⟨h, hin, hf, hbottom⟩ := h
  have hsound := hin.ready.sound
  rw [floorAt_open hin.kinds] at hsound
  have hlow : floorAt F w.builder ≤ header := hf.eq ▸ h.sound.low
  obtain ⟨hs₂, hspan, -, hframe⟩ := @Sound.linkBack _ _ (hsound.withContexts rest) _ _ w.current
    (hsound.laid.valid_newest hin.ready.newest) hf.join hlow hbottom hf.parents (fun d hd => by
      rw [View.above, show (State.view { w₁.builder with contexts := rest }).doms
        header = _ from hf.doms]
      rwa [show (State.view { w₁.builder with contexts := rest }).doms w.current = _
        from (hin.front h).2] at hd)
  rw [← hs] at hs₂ hspan hframe
  have hvalid := (hspan 0 0 (hf.eq ▸ Int.natCast_nonneg _) (Int.le_trans (Int.natCast_nonneg _)
    hin.current)).grows.isSome (View.isSome_of_join hf.join)
  refine ⟨hs₂, hvalid, fun n b₀ hn hb₀ => ?_, congrArg (·.2.2.2) hframe, fun names => ?_⟩
  · obtain ⟨hg, hp, hc, hm⟩ := hspan n b₀ hn hb₀
    exact ⟨hg, hp, hc, hm⟩
  · have hrec := hs₂.laid.reconcileAll hvalid names
    exact hrec.trans (hrec.laid.repairLoop hlow (hs₂.works hrec).closed)

theorem closes_reconcileLoop {f : LoopFrame} {ms : List Moment} (h : AtBottom F w w₁ f.header ms) :
    Yields (reconcileLoop f.header w₁.current f.branch) w₁.builder fun exit t => ∃ s c u,
      ClosesLoop (floorAt F w.builder) f w₁ s c u t ⟨t.resolveBranches, exit⟩ := by
  refine yields_reconcileLoop fun blk c rest s hblk hjoin hc hs r hr t ht => ?_
  obtain ⟨hs₂, hvalid₂, -, -, hworks⟩ := h.linkBack rest rfl
  have hrep := hworks c.touched
  rw [← hs] at hrep
  have hs₃ := hs₂.works hrep
  obtain ⟨hs₄, -, -, hid, -, hvalid₄, -⟩ := hs₃.addBlock
    (d := { kind := .exit, dominators := (s.repairLoop f.header).dominatorsOf f.header,
            parents := [f.header] })
    (.below (hrep.isSome hvalid₂) (dominatorsOf_eq _ _) rfl) (by intro he; cases he)
  subst hr
  have hu : s.repairLoop f.header = _ := congrArg (State.repairLoop · f.header) hs
  refine ⟨State.link { w₁.builder with contexts := rest } w₁.current f.header, c,
    s.repairLoop f.header, ?_⟩
  rcases ht with ⟨hzero, rfl⟩ | ⟨i, hi, hop, rfl⟩
  · exact ⟨⟨rest, hc, rfl⟩, hs₂, hvalid₂, hu, rfl, hs₄, .inl ⟨hzero, rfl⟩, hs₄, rfl, rfl, rfl⟩
  · have htarget : i.isTarget (if i.op.isConditional then .y else .x) = true := by
      cases hcond : i.op.isConditional with
      | true => simp [Instruction.isTarget, hop]
      | false => simpa [Instruction.isTarget, Opcode.isBranch, hcond] using hop
    have hentry : ((s.repairLoop f.header).addExit f.header).1 ≠ entryBlock := by
      rw [State.addExit, hid]
      exact hs₃.laid.layout.graph.size_ne_entry
    have hs₅ := hs₄.defer hi htarget hvalid₄ hentry
    have hview₅ := view_defer hi htarget ((s.repairLoop f.header).addExit f.header).1
    have hctx₅ := contexts_defer ((s.repairLoop f.header).addExit f.header).2 f.branch
      (if i.op.isConditional then .y else .x) ((s.repairLoop f.header).addExit f.header).1
    exact ⟨⟨rest, hc, rfl⟩, hs₂, hvalid₂, hu, rfl, hs₄,
      .inr ⟨i, _, hi, htarget, fun hcond => if_pos hcond, rfl⟩, hs₅, hview₅, hctx₅, rfl⟩

theorem closes_closeLoop {f : LoopFrame} {ms : List Moment} (h : AtBottom F w w₁ f.header ms) :
    Yields (closeLoop f w₁.current) w₁ fun _ w' => ∃ s c u t,
      ClosesLoop (floorAt F w.builder) f w₁ s c u t w' := by
  refine .bind (yields_build ((closes_reconcileLoop h).imp ?_))
  rintro exit t ⟨s, c, u, hcl⟩
  exact .bind (yields_continueIn (yields_build (.modify ⟨s, c, u, t, hcl⟩)))

/-- A repaired loop goes on below its header. -/
theorem extends_closeLoop {f : LoopFrame} {ms : List Moment} (h : AtBottom F w w₁ f.header ms) :
    Yields (closeLoop f w₁.current) w₁ fun _ w' => Extends F w w' ms := by
  refine (closes_closeLoop h).imp ?_
  rintro _ w' ⟨s₂, c, s₃, t, hcl⟩
  obtain ⟨rest, hc, hs⟩ := hcl.popped
  obtain ⟨-, hvalid₂, hspan₂, hkinds₂, hworks⟩ := h.linkBack rest hs
  obtain ⟨h, hin, hf, -⟩ := h
  have hrep := hworks c.touched
  rw [← hcl.repaired] at hrep
  have hrest : rest.map (·.kind) = kinds w := by
    have hall := hin.kinds
    rw [kinds, hc] at hall
    exact (List.cons.inj hall).2
  have hle : w.current ≤ w₁.current := by
    have := hin.current
    have := h.newest
    lia
  have hspan₁ := hspan₂ w.builder.view.size w.current (Int.le_of_eq hf.eq.symm) hle
  have hg₁ := (hspan₂ 0 w₁.current (hf.eq ▸ Int.natCast_nonneg _) (Int.le_refl _)).grows
  have hs₃ := hcl.linked.works hrep
  have hs₅ := hcl.sound
  have hview₅ := hcl.view
  have hctx₅ := hcl.contexts
  have hmemory₅ : t.memory = (s₃.addExit f.header).2.memory := by
    rcases hcl.branch with ⟨-, ht⟩ | ⟨_, _, -, -, -, ht⟩
    · rw [ht]
    · rw [ht]
      exact memory_defer ..
  -- the block behind the loop
  have hvalid₃ := hrep.isSome hvalid₂
  let d : BlockDraft := { kind := .exit, dominators := s₃.dominatorsOf f.header,
                          parents := [f.header] }
  obtain ⟨hs₄, hg₄, hspan₄, hid, hsize₄, hvalid₄, hdoms₄, -, -, hframe₄⟩ :=
    hs₃.addBlock (d := d) (.below hvalid₃ (dominatorsOf_eq _ _) rfl) (by intro he; cases he)
  have hcur : w'.current = s₃.view.size := hcl.current.trans hid
  rw [show s₃.addExit f.header = s₃.addBlock d from rfl] at hview₅ hctx₅
  have hbr := hs₅.laid.resolveBranches hs₅.deferrals
  rw [← hcl.builder] at hbr
  rw [hid, ← hcur] at hvalid₄
  have hkinds' : kinds w' = kinds w := by
    rw [kinds, show w'.builder.contexts.map (·.kind) = t.contexts.map (·.kind) from congrArg
      (·.2.2.2) hbr.frame, hctx₅, show (s₃.addBlock d).2.contexts.map (·.kind) = s₃.contexts.map
      (·.kind) from
        congrArg (·.2.2.2) hframe₄,
      show s₃.contexts.map (·.kind) = s₂.contexts.map (·.kind) from congrArg (·.2.2.2) hrep.frame,
        hkinds₂, hrest]
  have hheader : w.current ≤ f.header := by
    have := h.newest
    rw [hf.eq]
    lia
  -- everything together
  have hsame : Spans w.builder.view.size w.current w₁.builder s₃ :=
    hspan₁.trans (.of_works hrep) (Nat.le_refl _) (Int.le_refl _)
  have hsize₃ : w.builder.view.size ≤ s₃.view.size :=
    Nat.le_trans hin.spans.grows.size hsame.grows.size
  have hexit : Spans w.builder.view.size w.current s₃ w'.builder :=
    ((hspan₄ _ fun q hq => mem_singleton.mp hq ▸ hheader).trans (.of_view hview₅ hmemory₅)
      (Nat.le_refl _) (Int.le_refl _)).trans (.of_works hbr) (Nat.le_refl _)
      (Int.le_refl _) |> fun g =>
        ⟨g.grows, fun b hb => g.parents b (Int.lt_of_lt_of_le hb (Int.ofNat_le.mpr hsize₃)),
          g.children, g.memory⟩
  have hgrow : View.Grows w₁.current w₁.builder.view w'.builder.view :=
    ((hg₁.trans (hrep.grows _) (Int.le_refl _)).trans (hg₄ _) (Int.le_refl _)).trans
      (hview₅ ▸ hbr.grows _) (Int.le_refl _)
  have hnew : w₁.current ≤ w'.current ∧ w.builder.view.size ≤ w'.current := by
    have := hin.ready.newest
    have := hsame.grows.size
    rw [hcur]
    constructor <;> lia
  refine ⟨⟨sound_settle (hs₅.works hbr) hkinds', ?_⟩,
    (hin.spans.trans hsame (Nat.le_refl _) (Int.le_refl _)).trans hexit (Nat.le_refl _)
    (Int.le_refl _), Int.le_trans hle hnew.1, ⟨[w'.current, f.header], ?_, fun x hx => ?_⟩, hkinds',
    fun m hm => (hin.moments m hm).mono hgrow (Int.le_refl _) hnew.1⟩
  · rw [hbr.size, hview₅, hsize₄, hcur]
    rfl
  · rw [(hbr.grows 0).doms_eq (hview₅ ▸ hvalid₄), hview₅, hcur, hdoms₄,
      (hrep.grows 0).doms_eq hvalid₂, hg₁.doms_eq (View.isSome_of_join hf.join), hf.doms]
    rfl
  · rcases mem_cons.mp hx with rfl | hx
    · exact hnew.2
    · rw [mem_singleton.mp hx]
      exact Int.le_of_eq hf.eq.symm

theorem extends_lowerLoop (scope : Scope) (cond : Relation) {body : Lower Unit}
    {ms : Walk → List Moment} {ns : LoopFrame → Walk → List Moment} (h : Ready F w)
    (hbody : Extending body ms) (hns : ∀ f w w', ∀ m ∈ ns f w, Seen w' m) :
    Yields (lowerLoop scope cond body) w fun _ w' => Extends F w w'
      ((follow (openHeader w) fun _ w => relationMoments scope cond w) ++
        follow (openLoop scope cond w) fun f w => ms w ++ ns f w) := by
  refine .bind ((inside_openLoop scope cond h).self.imp ?_)
  rintro f w₁ ⟨⟨hin, hf, hlt, hdoms⟩, heq⟩
  refine .bind (yields_within ((hbody hin.ready).imp fun _ w₂ hpart => ?_) _)
  refine .bind ((atBottom_endBody h hin hf hlt hdoms hpart).imp ?_)
  rintro bottom w₃ ⟨rfl, hb⟩
  refine (extends_closeLoop hb).imp fun _ w' hw' => ?_
  rw [follow_ok heq, ← append_assoc]
  refine ⟨hw'.ready, hw'.spans, hw'.current, hw'.below, hw'.kinds, fun m hm => ?_⟩
  rcases mem_append.mp hm with hm | hm
  · exact hw'.moments m hm
  · exact hns f w₁ w' m hm

theorem openLoop_cases (scope : Scope) (cond : Relation) (w : Walk) :
    Yields (openLoop scope cond) w fun f w' => ∃ r w₁ r',
      r = (w.builder.openJoin .loop).addBlock
        { kind := .loopHeader, join := .loop, dominators := w.builder.dominatorsOf w.current,
          parents := [w.current] } ∧
      lowerRelation scope cond ⟨r.2, r.1⟩ = .ok f.branch w₁ ∧ f.header = r.1 ∧
      r' = w₁.builder.addBlock
        { kind := .loopBody, dominators := w₁.builder.dominatorsOf r.1, parents := [r.1] } ∧
      w' = ⟨r'.2, r'.1⟩ := by
  refine .bind (yields_openHeader fun r hr => .bind
    (yields_within (.of_ok fun branch w₁ hrel => ?_) _))
  exact .bind (yields_openBody fun r' hr' => .pure ⟨r, w₁, r', hr, hrel, rfl, hr', rfl⟩)

/-- A loop is lowered up to the end of its body: `r` makes its header, where the branch of the
condition leads to
`w₁`, `r'` makes the first block of the body, and a jump back to the header ends the body in
`w₃`. -/
structure EndsBody (F : BlockId) (scope : Scope) (cond : Relation) (w : Walk) (r : BlockId × State)
    (branch : InstId) (w₁ : Walk) (r' : BlockId × State) (w₂ : Walk) (bra : Value) (w₃ : Walk)
    (ms ns : List Moment) : Prop where
  header : r = (w.builder.openJoin .loop).addBlock
    { kind := .loopHeader, join := .loop, dominators := w.builder.dominatorsOf w.current,
      parents := [w.current] }
  condition : lowerRelation scope cond ⟨r.2, r.1⟩ = .ok branch w₁
  body : r' = w₁.builder.addBlock
    { kind := .loopBody, dominators := w₁.builder.dominatorsOf r.1, parents := [r.1] }
  jump : emitHere .bra {} {} w₂ = .ok bra w₃
  entered : Inside F .loop w ⟨r'.2, r'.1⟩ ms
  ended : AtBottom F w { w₃ with builder := w₃.builder.defer bra.id .x r.1 } r.1 ns

/-- What lowering a loop goes through up to the end of its body. -/
theorem endBody_cases (scope : Scope) (cond : Relation) {body : Lower Unit}
    {ms : Walk → List Moment} (h : Ready F w) (hbody : Extending body ms) {f : LoopFrame}
    {v w₂ u : Walk} {bottom : BlockId} (hopen : openLoop scope cond w = .ok f v)
    (hpart : body v = .ok ⟨⟩ w₂) (hend : endBody f w₂ = .ok bottom u) : ∃ r w₁ r' bra w₃ ms ns,
    f.header = r.1 ∧ v = ⟨r'.2, r'.1⟩ ∧ bottom = w₃.current ∧
      u = { w₃ with builder := w₃.builder.defer bra.id .x r.1 } ∧ EndsBody F scope cond w r f.branch
        w₁ r' w₂ bra w₃ ms ns := by
  obtain ⟨hin, hf, hlt, hdoms⟩ := inside_openLoop scope cond h _ _ hopen
  obtain ⟨r, w₁, r', hr, hrel, hheader, hr', rfl⟩ := openLoop_cases scope cond w _ _ hopen
  have htake : Yields (endBody f) w₂ fun _ w' => ∃ bra w₃, emitHere .bra {} {} w₂ = .ok bra w₃ ∧
      w' = { w₃ with builder := w₃.builder.defer bra.id .x f.header } :=
    yields_endBody <| .of_ok fun bra w₃ hbra _ _ _ => ⟨bra, w₃, hbra, rfl⟩
  obtain ⟨rfl, hb⟩ := atBottom_endBody h hin hf hlt hdoms (hbody hin.ready _ _ hpart) _ _ hend
  obtain ⟨bra, w₃, hemit, rfl⟩ := htake _ _ hend
  rw [hheader] at hb
  exact ⟨r, w₁, r', bra, w₃, _, _, hheader, rfl,
    rfl, by rw [hheader], hr, hrel, hr', hemit, hin, hb⟩

end

/-- Repairs find nothing that has to be seen later. -/
theorem seen_follow_repair {α : Type} (r : EStateM.Result Report Walk α)
    (header : BlockId) (w : Walk) :
    ∀ m ∈ follow r fun _ w => [.repair w.builder header], Seen w m := by
  intro m hm
  unfold follow at hm
  split at hm
  · rw [mem_singleton.mp hm]
    trivial
  · cases hm

mutual

/-- A statement goes on in a block below the one it started in, and all that was there stays. -/
theorem extends_lowerStmt (scope : Scope) : ∀ (st : Stmt) {F : BlockId} {w : Walk}, Ready F w →
    Yields (lowerStmt scope st) w fun _ w' => Extends F w w' (stmtMoments scope st w)
  | .assign target value pos, F, w, h => by
    refine .bind (yields_within ((computes_lowerExpr scope value h).self.imp ?_) _)
    rintro v w₁ ⟨⟨hc, hv⟩, heq⟩
    refine yields_within ((extends_lowerAssign scope target (hc.ready h) hv).imp fun _ w' hw' => ?_)
      _
    simp only [stmtMoments, follow_ok heq]
    exact (hc.extends h).trans hw'
  | .call fn args pos, F, w, h => by
    refine .discard (yields_within ((computes_lowerCall h (computes_lowerArgument scope args h)).imp
      fun _ w' hw' => ?_) _)
    rw [stmtMoments]
    exact hw'.1.extends h
  | .ifThen cond thenPart pos, F, w, h => by
    rw [stmtMoments]
    exact yields_within (extends_lowerIfThen scope cond h (extends_lowerStmts scope thenPart)) _
  | .ifElse cond thenPart elsePart pos, F, w, h => by
    rw [stmtMoments]
    exact yields_within (extends_lowerIfElse scope cond h (extends_lowerStmts scope thenPart)
      (extends_lowerStmts scope elsePart)) _
  | .loop cond body pos, F, w, h => by
    rw [stmtMoments]
    exact yields_within (extends_lowerLoop scope cond h (extends_lowerStmts scope body)
      fun f _ w' => seen_follow_repair _ f.header w') _
  | .hole, _, _, _ => .throw trivial

theorem extends_lowerStmts (scope : Scope) : ∀ (ss : List Stmt) {F : BlockId} {w : Walk},
    Ready F w → Yields (lowerStmts scope ss) w fun _ w' => Extends F w w' (stmtsMoments scope ss w)
  | [], _, _, h => .pure (.refl h)
  | st :: ss, F, w, h => by
    refine .bind (yields_within ((extends_lowerStmt scope st h).self.imp ?_) _)
    rintro _ w₁ ⟨hst, heq⟩
    refine (extends_lowerStmts scope ss hst.ready).imp fun _ w' hw' => ?_
    simp only [stmtsMoments, follow_ok heq]
    exact hst.trans hw'

end

/-! ## Programs -/

theorem ready_new (settings : Settings) (F : BlockId) : Ready F { builder := .new settings } := by
  refine ⟨?_, rfl⟩
  rw [show floorAt F (State.new settings) = (State.new settings).view.size from rfl]
  exact sound_of_laid (laid_new settings) nofun (entered_new settings)

theorem ready_declareArrays {F : BlockId} (ds : List ArrayDecl) {w : Walk} (h : Ready F w)
    (hk : kinds w = []) : Yields (declareArrays ds) w fun _ w' => Ready F w' ∧ kinds w' = [] := by
  induction ds generalizing w with
  | nil => exact .pure ⟨h, hk⟩
  | cons d ds ih =>
    refine .bind (yields_located (.discard (yields_build (yields_declareArray.imp ?_))) _ _)
    rintro a s ⟨-, -, -, hs⟩
    obtain ⟨hl, hg, hsize, hgraph, hdef, hkinds⟩ := h.sound.laid.addArray d.name d.dims
    rw [← hs] at hl hg hsize hgraph hdef hkinds
    have hfloor : floorAt F s = floorAt F w.builder :=
      @floorAt_of_kinds F w { w with builder := s } hkinds hsize
    have hempty : floorAt F w.builder = w.builder.view.size := by
      rw [floorAt, map_eq_nil_iff.mp hk]
      rfl
    refine ih ⟨?_, hsize ▸ h.newest⟩ (hkinds.trans hk)
    show Sound (floorAt F s) s
    rw [hfloor, hempty, ← hsize]
    rw [hempty, ← hsize] at hl
    exact sound_of_laid hl (h.sound.deferrals.mono hdef (hg 0)) (h.sound.entered.of_graph hgraph)

/-- What was seen while a program was lowered is still there in the finished program. -/
theorem lower_seen {settings : Settings} {c : Computation} {p : Program}
    (h : lower settings c = .ok p) : ∃ w : Walk, Ready 0 w ∧ p.insts = w.builder.insts ∧
      p.blocks = w.builder.blocks ∧ ∀ m ∈ moments settings c, Seen w m := by
  obtain ⟨w₁, w₂, w₃, e, h₁, h₂, h₃, rfl⟩ := lower_ok h
  obtain ⟨hr₁, -⟩ := ready_declareArrays c.arrays (ready_new settings 0) rfl _ _ h₁
  have hbody := extends_lowerStmts _ c.body hr₁ _ _ h₂
  obtain ⟨v, s, hv, -, hs₃, hinsts, hblocks, -⟩ := yields_endProgram _ _ h₃
  obtain ⟨hw, -⟩ := hbody.ready.sound.laid.emitEffect hbody.ready.newest .halt rfl nofun nofun
    (boundedSource_absent _) (boundedSource_absent _)
  rw [← hv] at hw
  have hs := hbody.ready.sound.works hw
  have hbr := hs.laid.resolveBranches hs.deferrals
  have hall : AddsCode (floorAt 0 w₂.builder) w₂.builder w₃.builder :=
    hs₃ ▸ (hw.trans hbr).trans (hbr.laid.report _)
  refine ⟨{ w₂ with builder := w₃.builder }, hbody.ready.works hall, hinsts, hblocks,
    fun m hm => ?_⟩
  rw [moments, follow_ok h₁] at hm
  exact (hbody.moments m hm).mono (hall.grows w₂.current) (Int.le_refl _) (Int.le_refl _)

end SingleAssignment.Lowering
