import SingleAssignment.Proofs.Outcome
import SingleAssignment.Proofs.Outline
import SingleAssignment.Proofs.Replay

/-!
# Sound states

A state is sound (`Sound`) if its code is laid out well and nothing leads out of the blocks whose
versions may still be replayed. What the steps of lowering do to a state keeps it sound, and it adds
code from some block on and leaves the edges in front of that as they are (`Spans`).
-/

namespace SingleAssignment.Builder

open Code List State

theorem View.doms_of_graph {V V' : View} (h : V'.graph = V.graph) : V'.doms = V.doms := by
  funext b
  rw [View.doms, View.doms, h]

theorem View.parents_of_graph {V V' : View} (h : V'.graph = V.graph) : V'.parents = V.parents := by
  funext b
  rw [View.parents, View.parents, h]

theorem View.children_of_graph {V V' : View} (h : V'.graph = V.graph) :
    V'.children = V.children := by
  funext b
  rw [View.children, View.children, h]

/-- Every block but the first is entered from an earlier one, and so it is past any block that is
not among its dominators. -/
def View.Entered (V : View) : Prop :=
  ∀ b d, (V.graph b).isSome → b ≠ entryBlock → d ∉ V.doms b →
    ∃ p ∈ V.parents b, p < b ∧ d ∉ V.doms p

theorem View.Entered.of_graph {V V' : View} (h : V.Entered) (hg : V'.graph = V.graph) :
    V'.Entered := by
  unfold View.Entered
  rw [hg, View.doms_of_graph hg, View.parents_of_graph hg]
  exact h

/-- Edges that are added leave a block entered as it was. -/
theorem View.Entered.grow {V V' : View} {b₀ b d : BlockId} (h : V.Entered) (hV : V.Graph)
    (g : View.Grows b₀ V V') (hparents : ∀ p ∈ V.parents b, p ∈ V'.parents b)
    (hb : (V.graph b).isSome) (hne : b ≠ entryBlock) (hd : d ∉ V'.doms b) :
    ∃ p ∈ V'.parents b, p < b ∧ d ∉ V'.doms p := by
  rw [g.doms_eq hb] at hd
  obtain ⟨p, hp, hlt, hout⟩ := h b d hb hne hd
  refine ⟨p, hparents p hp, hlt, ?_⟩
  rwa [g.doms_eq (hV.parent hp).1]

/-- A state whose code is laid out well, with branches that wait for blocks. No edge leaves the
blocks from `floor` on, whose versions may still be replayed. -/
structure Sound (floor : BlockId) (s : State) : Prop where
  laid : Laid floor s
  deferrals : Deferrals s
  low : floor ≤ s.view.size
  closed : ∀ b c, floor ≤ b → c ∈ s.view.children b → floor ≤ c
  entered : s.view.Entered

/-- How memory is laid out: all that is known of arrays but for the number of their changes. -/
def State.memory (s : State) : Setup × List ArrayInfo :=
  (s.settings, s.arrays.map fun a => { a with epoch := 0 })

theorem State.memory_of_frame {s t : State} (h : t.frame = s.frame) : t.memory = s.memory := by
  rw [memory, memory, arrays_of_frame h, show t.settings = s.settings from congrArg (·.1) h]

theorem State.memory_openJoin (s : State) (kind : JoinKind) :
    (s.openJoin kind).memory = s.memory := by
  unfold memory openJoin
  split
  · simp
  · rfl

theorem State.memory_defer (s : State) (id : InstId) (side : Side) (target : BlockId) :
    (s.defer id side target).memory = s.memory := by
  have hm : (s.modifyInst id (·.withSlot side (.pending target))).memory = s.memory :=
    memory_of_frame (frame_modifyInst s id _)
  exact hm

/-- That a branch waits for a block is not seen. -/
theorem State.view_defer {s : State} {id : InstId} {i : Instruction} {side : Side}
    (hi : s.inst? id = some i) (hside : i.isTarget side = true) (target : BlockId) :
    (s.defer id side target).view = s.view := by
  show (s.modifyInst id _).view = s.view
  refine view_modifyInst_of_face (fun i _ => by cases side <;> rfl) fun i' hi' _ => ?_
  cases hi.symm.trans hi'
  exact Timelines.face_withSlot hside _

theorem State.contexts_defer (s : State) (id : InstId) (side : Side) (target : BlockId) :
    (s.defer id side target).contexts = s.contexts := by
  show (s.modifyInst id _).contexts = s.contexts
  unfold State.modifyInst
  split <;> rfl

theorem State.memory_storeAt (s : State) (b : BlockId) (name : String) (epoch : Int)
    (v addr : Value) : (s.storeAt b name epoch v addr).memory = s.memory := by
  have hf : ((s.emitEffect b .store v addr).2.modifyInst (s.emitEffect b .store v addr).1.id
    fun i =>
      { i with memory := some ⟨name, epoch⟩ }).frame = s.frame := by
    rw [frame_modifyInst]
    exact frame_place ..
  refine .trans ?_ (memory_of_frame hf)
  refine Prod.ext rfl ?_
  show ((State.arrays _).map _).map _ = _
  rw [map_map]
  refine map_congr_left fun a _ => ?_
  simp only [Function.comp_apply]
  split <;> rfl

/-- Code was added to a state from block `b₀` on. The blocks before the `n`-th keep their parents,
those before `b₀` their children, and arrays stay where they are. -/
structure Spans (n : Nat) (b₀ : BlockId) (s t : State) : Prop where
  grows : View.Grows b₀ s.view t.view
  parents : ∀ b : BlockId, b < n → t.view.parents b = s.view.parents b
  children : ∀ b : BlockId, b < b₀ → t.view.children b = s.view.children b
  memory : t.memory = s.memory

namespace Spans

variable {n n' : Nat} {b₀ b₁ floor : BlockId} {s t u : State}

theorem refl (n : Nat) (b₀ : BlockId) (s : State) : Spans n b₀ s s :=
  ⟨.refl b₀ _, fun _ _ => rfl, fun _ _ => rfl, rfl⟩

theorem trans (h : Spans n b₀ s t) (h' : Spans n' b₁ t u) (hn : n ≤ n') (hb : b₀ ≤ b₁) :
    Spans n b₀ s u :=
  ⟨h.grows.trans h'.grows hb,
    fun b hlt => (h'.parents b (Int.lt_of_lt_of_le hlt (Int.ofNat_le.mpr hn))).trans
    (h.parents b hlt), fun b hlt => (h'.children b (Int.lt_of_lt_of_le hlt hb)).trans
    (h.children b hlt), h'.memory.trans h.memory⟩

theorem of_graph (g : View.Grows b₀ s.view t.view) (h : t.view.graph = s.view.graph)
    (hm : t.memory = s.memory) : Spans n b₀ s t :=
  ⟨g, fun _ _ => by rw [View.parents_of_graph h], fun _ _ => by rw [View.children_of_graph h], hm⟩

theorem of_works (h : AddsCode floor s t) : Spans n b₀ s t :=
  of_graph (h.grows b₀) h.graph (memory_of_frame h.frame)

theorem of_view (h : t.view = s.view) (hm : t.memory = s.memory) : Spans n b₀ s t :=
  of_graph (h ▸ .refl b₀ _) (by rw [h]) hm

end Spans

/-! ## Steps on states -/

theorem View.isSome_of_join {V : View} {b : BlockId} (h : V.join b = .loop) :
    (V.graph b).isSome := by
  cases hg : V.graph b with
  | none => simp [View.join, hg] at h
  | some blk => rfl

/-- A block can be made below a block `p`: it is entered from blocks below `p`, which meet nowhere
else. -/
structure Attaches (s : State) (p : BlockId) (d : BlockDraft) : Prop where
  valid : (s.view.graph p).isSome
  doms : d.dominators = s.view.doms p
  parents : ∀ q ∈ d.parents, (s.view.graph q).isSome ∧ ∀ x ∈ s.view.doms p, x ∈ s.view.doms q
  meet : ∀ q ∈ d.parents, ∀ r ∈ d.parents, q ≠ r → ∀ x ∈ s.view.doms q, x ∈ s.view.doms r →
    x ∈ s.view.doms p
  past : ∀ x ∉ s.view.doms p, ∃ q ∈ d.parents, x ∉ s.view.doms q
  nodup : d.parents.Nodup

/-- A block that is entered from one block can be made below that. -/
theorem Attaches.below {s : State} {p : BlockId} {d : BlockDraft} (hp : (s.view.graph p).isSome)
    (hdoms : d.dominators = s.view.doms p) (hps : d.parents = [p]) : Attaches s p d := by
  have hone : ∀ q ∈ d.parents, q = p := fun q hq => mem_singleton.mp (hps ▸ hq)
  exact ⟨hp, hdoms, fun q hq => (hone q hq).symm ▸ ⟨hp, fun x hx => hx⟩,
    fun q hq r hr hne => absurd ((hone q hq).trans (hone r hr).symm) hne,
    fun x hx => ⟨p, hps ▸ mem_singleton_self p, hx⟩, hps ▸ pairwise_singleton ..⟩

namespace Sound

variable {floor floor' b p : BlockId} {s t : State}

theorem works (h : Sound floor s) (hw : AddsCode floor s t) : Sound floor t :=
  ⟨hw.laid, h.deferrals.mono (congrArg (·.2.2.1) hw.frame) (hw.grows 0), hw.size ▸ h.low,
    fun b c hb hc => h.closed b c hb (View.children_of_graph hw.graph ▸ hc),
    h.entered.of_graph hw.graph⟩

/-- Open joins do not matter. -/
theorem withContexts (h : Sound floor s) (contexts : List JoinContext) :
    Sound floor { s with contexts := contexts } :=
  ⟨⟨h.laid.timelines.of_arenas rfl rfl rfl, h.laid.layout⟩, h.deferrals, h.low, h.closed, h.entered⟩

/-- Fewer versions may be replayed. -/
theorem raise (h : Sound floor s) : Sound s.view.size s := by
  have hr : View.Revises s.view s.view floor s.view.size := by
    refine ⟨rfl, rfl, rfl, fun _ => rfl, fun _ => rfl, fun he => .inl he,
      fun hv hphi => .inl ⟨_, hv, hphi⟩, fun {a} ha => .inl ⟨a.epoch, ha⟩,
      fun he => ⟨_, he, Int.le_refl _⟩, fun {x t} ht => ?_, .of_eq rfl rfl⟩
    cases x with
    | inst id => exact ht
    | mark v =>
      simp only [View.tagsAt] at ht ⊢
      cases hv : s.view.versions v with
      | none => simp [hv] at ht
      | some ver =>
        simp only [hv, Option.map_some, Option.getD_some] at ht ⊢
        split at ht
        · rename_i hcond
          simp only [Bool.and_eq_true, decide_eq_true_eq] at hcond
          rw [if_pos]
          · exact ht
          · simp only [Bool.and_eq_true, decide_eq_true_eq]
            exact ⟨Int.le_trans h.low hcond.1, hcond.2⟩
        · cases ht
  refine ⟨⟨h.laid.timelines, h.laid.layout.revise hr⟩, h.deferrals, Int.le_refl _,
    fun b c hb hc => ?_, h.entered⟩
  have hsome := (h.laid.layout.graph.parent (h.laid.layout.graph.edge hc).2.1).1
  exact absurd ((h.laid.layout.graph.valid b).mp hsome).2 (Int.not_lt.mpr hb)

/-- A branch waits for a block. -/
theorem defer (h : Sound floor s) {id : InstId} {i : Instruction} {side : Side} {target : BlockId}
    (hi : s.inst? id = some i) (hside : i.isTarget side = true)
    (ht : (s.view.graph target).isSome) (hentry : target ≠ entryBlock) :
    Sound floor (s.defer id side target) := by
  have hop : ∀ i : Instruction, (i.withSlot side (.pending target)).op = i.op := by
    intro i
    cases side <;> rfl
  have hne : i.op ≠ .empty := by
    intro he
    simp [Instruction.isTarget, Opcode.isBranch, Opcode.isConditional, he] at hside
  have hview : (s.modifyInst id (·.withSlot side (.pending target))).view = s.view :=
    view_defer hi hside target
  have htime : Timelines (s.modifyInst id (·.withSlot side (.pending target))) := by
    refine h.laid.timelines.modifyInst (fun i => by cases side <;> rfl)
      (fun i => by cases side <;> rfl)
      fun i' hi' he => ?_
    cases hi.symm.trans hi'
    exact absurd ((hop i).symm.trans he) hne
  have hframe := frame_modifyInst s id (·.withSlot side (.pending target))
  refine ⟨⟨htime.of_arenas rfl rfl rfl, ?_⟩, ?_, ?_, ?_, ?_⟩
  · show View.Layout (s.modifyInst id _).view floor
    rw [hview]
    exact h.laid.layout
  · have hold : Deferrals (s.modifyInst id (·.withSlot side (.pending target))) :=
      h.deferrals.mono (congrArg (·.2.2.1) hframe) (by rw [hview]; exact .refl 0 _)
    intro d hd
    have hd : d ∈ ((s.modifyInst id (·.withSlot side (.pending target))).deferrals.push
      ⟨id, side, target⟩).toList := hd
    rw [Array.toList_push] at hd
    rcases mem_append.mp hd with hd | hd
    · exact hold d hd
    · rw [mem_singleton.mp hd]
      refine ⟨?_, hentry, i.withSlot side (.pending target), ?_, ?_⟩
      · show ((s.modifyInst id _).block? target).isSome
        rw [block?_modifyInst]
        simpa [State.view] using ht
      · show (s.modifyInst id _).inst? id = _
        rw [inst?_modifyInst, if_pos rfl, hi]
        rfl
      · rw [← hside]
        simp only [Instruction.isTarget, hop]
  · show floor ≤ ((s.modifyInst id _).view.size : BlockId)
    rw [hview]
    exact h.low
  · show ∀ b c, floor ≤ b → c ∈ (s.modifyInst id _).view.children b → floor ≤ c
    rw [hview]
    exact h.closed
  · show (s.modifyInst id _).view.Entered
    rw [hview]
    exact h.entered

/-- A new block. -/
theorem addBlock (h : Sound floor s) {d : BlockDraft} (hat : Attaches s p d)
    (hloop : d.join = .loop → s.view.NoCurrent floor) :
    Sound floor (s.addBlock d).2 ∧ (∀ b₀, View.Grows b₀ s.view (s.addBlock d).2.view) ∧
      (∀ b₀, (∀ q ∈ d.parents, b₀ ≤ q) → Spans s.view.size b₀ s (s.addBlock d).2) ∧
      (s.addBlock d).1 = s.view.size ∧ (s.addBlock d).2.view.size = s.view.size + 1 ∧
      ((s.addBlock d).2.view.graph (s.addBlock d).1).isSome ∧
      (s.addBlock d).2.view.doms s.view.size = (s.view.size : BlockId) :: s.view.doms p ∧
      (s.addBlock d).2.view.parents s.view.size = d.parents ∧
      (s.addBlock d).2.view.join s.view.size = d.join ∧ (s.addBlock d).2.frame = s.frame := by
  obtain ⟨hp, hdoms, hps, hmeet, hpast, hnodup⟩ := hat
  obtain ⟨hf, hid, hsize, hd, hj⟩ := h.laid.addBlock hp hdoms hps hmeet hloop
  obtain ⟨hchildren, hparents⟩ := h.laid.edges_addBlock (fun q hq => (hps q hq).1) hnodup
  refine ⟨⟨hf.laid, h.deferrals.mono (congrArg (·.2.2.1) hf.frame) (hf.grows 0), ?_, ?_, ?_⟩,
    hf.grows, fun b₀ hb₀ => ⟨hf.grows b₀, fun b hb => ?_, fun b hb => ?_, memory_of_frame hf.frame⟩,
    hid, hsize, ?_, hd, ?_, hj, hf.frame⟩
  · have := h.low
    rw [hsize]
    lia
  · intro b c hb hc
    rw [hchildren] at hc
    split at hc
    · rcases mem_append.mp hc with hc | hc
      · exact h.closed b c hb hc
      · rw [mem_singleton.mp hc]
        exact h.low
    · exact h.closed b c hb hc
  · intro b x hb hne hx
    by_cases hnew : b = s.view.size
    · subst hnew
      rw [hd] at hx
      obtain ⟨q, hq, hout⟩ := hpast x fun hm => hx (mem_cons_of_mem _ hm)
      rw [hparents, if_pos rfl]
      refine ⟨q, hq, ((h.laid.layout.graph.valid q).mp (hps q hq).1).2, ?_⟩
      rwa [(hf.grows 0).doms_eq (hps q hq).1]
    · have hvalid := (hf.laid.layout.graph.valid b).mp hb
      rw [hsize] at hvalid
      refine h.entered.grow h.laid.layout.graph (hf.grows 0) (fun q hq => ?_)
        ((h.laid.layout.graph.valid b).mpr ⟨hvalid.1, by lia⟩) hne hx
      rwa [hparents, if_neg hnew]
  · rw [hparents, if_neg (Int.ne_of_lt hb)]
  · rw [hchildren, if_neg fun hq => absurd (hb₀ b hq) (Int.not_le.mpr hb)]
  · rw [hf.laid.layout.graph.valid, hid, hsize]
    exact ⟨Int.natCast_nonneg _, Int.lt_succ _⟩
  · rw [hparents, if_pos rfl]

theorem openJoin (h : Sound floor s) (kind : JoinKind) : Sound floor (s.openJoin kind) ∧
    (∀ n b₀, Spans n b₀ s (s.openJoin kind)) ∧ (s.openJoin kind).view.graph = s.view.graph ∧
    (s.openJoin kind).view.size = s.view.size ∧
    (kind = .loop → (s.openJoin kind).view.NoCurrent floor) := by
  obtain ⟨hl, hg, hsize, hgraph, hno⟩ := h.laid.openJoin kind
  refine ⟨⟨hl, h.deferrals.mono rfl (hg 0), hsize ▸ h.low, fun b c hb hc => ?_,
    h.entered.of_graph hgraph⟩, fun n b₀ => .of_graph (hg b₀) hgraph (memory_openJoin s kind),
    hgraph, hsize, hno⟩
  exact h.closed b c hb (View.children_of_graph hgraph ▸ hc)

/-- The edge back to the header of a loop, from a block that the header dominates. -/
theorem linkBack (h : Sound floor s) {bottom header pre : BlockId}
    (hbottom : (s.view.graph bottom).isSome) (hjoin : s.view.join header = .loop)
    (hfloor : floor ≤ header) (hdom : ∀ d ∈ s.view.doms header, d ∈ s.view.doms bottom)
    (hparents : s.view.parents header = [pre])
    (hpre : ∀ d ∈ s.view.doms pre, d ∈ s.view.above header) :
    Sound floor (s.link bottom header) ∧
      (∀ (n : Nat) b₀, (n : BlockId) ≤ header → b₀ ≤ bottom → Spans n b₀ s (s.link bottom header)) ∧
      (s.link bottom header).view.size = s.view.size ∧ (s.link bottom header).frame = s.frame := by
  have hheader := View.isSome_of_join hjoin
  have hf := h.laid.link hbottom hheader
    (fun d hd => hdom d (h.laid.layout.graph.doms_eq hheader ▸ mem_cons_of_mem _ hd))
    (fun _ => hjoin) (fun q hq _ d hd _ => by
      rw [hparents] at hq
      cases hq
      exact hpre d hd)
  have hsize : (s.link bottom header).view.size = s.view.size := by
    rw [view_link]
    rfl
  refine ⟨⟨hf.laid, h.deferrals.mono (congrArg (·.2.2.1) hf.frame) (hf.grows 0),
    hsize ▸ h.low, ?_, ?_⟩, fun n b₀ hn hb₀ => ⟨hf.grows b₀, fun b hb => ?_, fun b hb => ?_,
    memory_of_frame hf.frame⟩, hsize, hf.frame⟩
  · intro b c hb hc
    rw [children_link hbottom] at hc
    split at hc
    · rcases mem_append.mp hc with hc | hc
      · exact h.closed b c hb hc
      · rw [mem_singleton.mp hc]
        exact hfloor
    · exact h.closed b c hb hc
  · intro b x hb hne hx
    have hvalid := (hf.laid.layout.graph.valid b).mp hb
    rw [hsize] at hvalid
    refine h.entered.grow h.laid.layout.graph (hf.grows 0) (fun q hq => ?_)
      ((h.laid.layout.graph.valid b).mpr hvalid) hne hx
    rw [parents_link hheader]
    split
    · exact mem_append_left _ hq
    · exact hq
  · rw [parents_link hheader, if_neg]
    rintro ⟨rfl, -⟩
    lia
  · rw [children_link hbottom, if_neg]
    rintro ⟨rfl, -⟩
    lia

end Sound

theorem Laid.reconcileAll {floor j : BlockId} {s : State} (h : Laid floor s)
    (hj : (s.view.graph j).isSome) (names : List String) :
    AddsCode floor s (s.reconcileAll j names) := by
  unfold State.reconcileAll
  induction names generalizing s with
  | nil => exact .refl h
  | cons name names ih =>
    have hw := h.reconcile hj name
    exact hw.trans (ih hw.laid (hw.isSome hj))

/-! ## The first state -/

section New

variable (settings : Settings)

theorem doms_new (b : BlockId) :
    (State.new settings).view.doms b = if b = 0 then [0] else if b = 1 then [1, 0] else [] := by
  show (((State.new settings).block? b).map Block.shape |>.map (·.dominators)).getD [] = _
  rw [block?_new]
  split
  · rfl
  · split <;> rfl

theorem parents_new (b : BlockId) : (State.new settings).view.parents b = if b = 1 then
    [0] else [] := by
  show (((State.new settings).block? b).map Block.shape |>.map (·.parents)).getD [] = _
  rw [block?_new]
  split
  · rename_i hb
    rw [if_neg (by rw [hb]; decide)]
    rfl
  · split <;> rfl

theorem children_new (b : BlockId) : (State.new settings).view.children b = if b = 0 then
    [1] else [] := by
  show (((State.new settings).block? b).map Block.shape |>.map (·.children)).getD [] = _
  rw [block?_new]
  split
  · rfl
  · split <;> rfl

theorem isSome_graph_new (b : BlockId) : ((State.new settings).view.graph b).isSome = true ↔
    b = 0 ∨ b = 1 := by
  show (((State.new settings).block? b).map Block.shape).isSome = true ↔ _
  rw [block?_new]
  split
  · simp_all
  · split <;> simp_all

theorem chain_new {b d : BlockId} {L T : List BlockId}
    (h : (State.new settings).view.doms b = L ++ d :: T) :
    (State.new settings).view.doms d = d :: T := by
  rw [doms_new] at h
  split at h
  · rcases cons_eq_append_iff.mp h with ⟨rfl, h⟩ | ⟨L, rfl, h⟩
    · cases h
      rfl
    · simp at h
  · split at h
    · rcases cons_eq_append_iff.mp h with ⟨rfl, h⟩ | ⟨L, rfl, htail⟩
      · cases h
        rfl
      · rcases cons_eq_append_iff.mp htail with ⟨rfl, hlast⟩ | ⟨L, rfl, hlast⟩
        · cases hlast
          rfl
        · simp at hlast
    · simp at h

theorem graph_new : (State.new settings).view.Graph where
  start := Nat.le_refl 2
  valid b := by
    rw [isSome_graph_new, show (State.new settings).view.size = 2 from rfl]
    lia
  id_eq := fun {b blk} hb => by
    obtain ⟨blk₀, hb₀, rfl⟩ := Option.map_eq_some_iff.mp hb
    rcases cases_block?_new hb₀ with ⟨rfl, rfl⟩ | ⟨rfl, rfl⟩ <;> rfl
  doms_eq := fun {b} hb => by
    rcases (isSome_graph_new settings b).mp hb with rfl | rfl <;> rfl
  chain := chain_new settings
  lt := fun {b d} hd => by
    rw [View.above, doms_new] at hd
    split at hd
    · cases hd
    · split at hd
      · rename_i hb
        rw [hb, mem_singleton.mp hd]
        decide
      · cases hd
  root := fun {b} hb hne => by
    rw [((isSome_graph_new settings b).mp hb).resolve_left hne]
    exact mem_singleton.mpr rfl
  edge := fun {b c} hc => by
    rw [children_new] at hc
    split at hc
    · rename_i hb
      rw [mem_singleton.mp hc, hb, View.above, doms_new, parents_new, doms_new]
      exact ⟨rfl, by simp, by simp, fun h => absurd h (by decide)⟩
    · cases hc
  parent := fun {p c} hp => by
    rw [parents_new] at hp
    split at hp
    · rename_i hc
      rw [mem_singleton.mp hp, hc, children_new]
      exact ⟨rfl, by simp⟩
    · cases hp
  meet := fun {j p q} h => by
    rw [parents_new] at h
    split at h <;> cases h

theorem entered_new : (State.new settings).view.Entered := by
  intro b d hb hne hd
  obtain rfl := ((isSome_graph_new settings b).mp hb).resolve_left hne
  rw [doms_new] at hd
  refine ⟨0, mem_singleton.mpr rfl, by decide, fun hmem => hd ?_⟩
  rw [doms_new] at hmem
  exact mem_cons_of_mem _ hmem

theorem timelines_new : Timelines (State.new settings) where
  id_eq := fun {id i} hi => by cases (inst?_new settings id).symm.trans hi
  blank := fun {id i} hi => by cases (inst?_new settings id).symm.trans hi
  nodup b := timelineOf_new settings b ▸ .nil
  owner := fun {b id} hid => by
    rw [timelineOf_new] at hid
    cases hid
  mark := fun {b v} hv => by
    rw [timelineOf_new] at hv
    cases hv
  tabled := tabled_new settings
  holder := fun {b blk p} hb hp => by
    rcases cases_block?_new hb with ⟨rfl, rfl⟩ | ⟨rfl, rfl⟩ <;> cases hp

theorem laid_new : Laid (State.new settings).view.size (State.new settings) := by
  have hinst : ∀ id, (State.new settings).view.insts id = none :=
    fun id => by simp [State.view, inst?_new]
  have hcode : ∀ b, (State.new settings).view.code b = [] := fun b => by
    simp [State.view, State.code, timelineOf_new]
  have htags : ∀ floor x, (State.new settings).view.tagsAt floor x = [] := by
    intro floor x
    cases x with
    | inst id => simp [View.tagsAt, hinst]
    | mark v => rfl
  exact ⟨timelines_new settings, {
    graph := graph_new settings
    nodup := fun b => hcode b ▸ .nil
    owner := fun {b id} h => by
      rw [hcode] at h
      cases h
    marked := fun {b v} h => by
      rw [hcode] at h
      cases h
    listed := fun {id i} h => by cases (hinst id).symm.trans h
    listedMark := fun {v ver} h => by cases h
    lead := fun b => hcode b ▸ .nil
    entries := fun {b e} h => by
      rw [show (State.new settings).view.entries b = [] from entriesOf_new settings b] at h
      cases h
    memory := fun {id i} h => by cases (hinst id).symm.trans h
    phis := fun {v ver id} h => by cases h
    arrays := fun {a} h => by cases h
    bounded := fun {x t} h => by
      rw [htags] at h
      cases h
    current := fun {b x t} h => by
      rw [hcode] at h
      cases h }⟩

end New

theorem sound_of_laid {s : State} (h : Laid s.view.size s) (hd : Deferrals s)
    (he : s.view.Entered) : Sound s.view.size s :=
  ⟨h, hd, Int.le_refl _, fun b c hb hc => by
    have hsome := (h.layout.graph.parent (h.layout.graph.edge hc).2.1).1
    exact absurd ((h.layout.graph.valid b).mp hsome).2 (Int.not_lt.mpr hb), he⟩

end SingleAssignment.Builder
