import SingleAssignment.Builder.Finish
import SingleAssignment.Proofs.AddsCode

/-!
# Arrays, blocks and edges

The operations of the builder that do more than add values: a store and a loop start new epochs, an
array is declared, a block is made, an edge is added, a branch is deferred. Each of them keeps the
layout, and nothing of what was there is taken away (`View.Grows`). A new block is the newest one;
an edge to it comes from blocks that its dominators dominate.
-/

namespace SingleAssignment.Builder

open Code List State
open Option (getD_some isSome_map map_eq_some_iff map_some)

/-! ## Epochs -/

namespace View

variable {V : View} {floor b : BlockId}

theorem find?_map_epoch (f : ArrayInfo → ArrayInfo) (hf : ∀ a, (f a).name = a.name)
    (arrays : List ArrayInfo) (name : String) :
    (arrays.map f).find? (·.name == name) = (arrays.find? (·.name == name)).map f := by
  rw [find?_map]
  congr 2
  funext a
  simp [hf]

/-- Epochs begin anew, and what blocks know is forgotten in part. -/
theorem Revises.epochs {f : ArrayInfo → ArrayInfo} {entries : BlockId → List Entry}
    (hname : ∀ a, (f a).name = a.name) (hepoch : ∀ a, a.epoch ≤ (f a).epoch)
    (hrest : ∀ a, { f a with epoch := a.epoch } = a)
    (hentries : ∀ b, ∀ e ∈ entries b, e ∈ V.entries b) :
    Revises V { V with arrays := V.arrays.map f, entries := entries } floor floor := by
  refine ⟨rfl, rfl, rfl, fun _ => rfl, fun _ => rfl, fun he => .inl (hentries _ _ he),
    fun hv hphi => .inl ⟨_, hv, hphi⟩, fun {a} ha => ?_, fun {a e} he => ?_, fun ht => ht,
    .of_eq rfl rfl⟩
  · obtain ⟨a₀, ha₀, rfl⟩ := mem_map.mp ha
    exact .inl ⟨a₀.epoch, by rwa [hrest]⟩
  · obtain ⟨a₀, ha₀, rfl⟩ := map_eq_some_iff.mp he
    refine ⟨(f a₀).epoch, ?_, hepoch a₀⟩
    simp only [View.epoch, find?_map_epoch f hname, ha₀, map_some]

/-- An array whose memory has changed if it has the given name. -/
def bumped (name : String) (a : ArrayInfo) : ArrayInfo :=
  if a.name == name then { a with epoch := a.epoch + 1 } else a

theorem name_bumped (name : String) (a : ArrayInfo) : (bumped name a).name = a.name := by
  unfold bumped
  split <;> rfl

theorem epoch_le_bumped (name : String) (a : ArrayInfo) : a.epoch ≤ (bumped name a).epoch := by
  unfold bumped
  split
  · exact Int.le_add_of_nonneg_right (by decide)
  · exact Int.le_refl _

theorem rest_bumped (name : String) (a : ArrayInfo) :
    { bumped name a with epoch := a.epoch } = a := by
  unfold bumped
  split <;> rfl

/-- A view in which an array is in a new epoch and blocks know the given values. -/
def newEpoch (V : View) (name : String) (entries : BlockId → List Entry) : View :=
  { V with arrays := V.arrays.map (bumped name), entries := entries }

/-- A store to an array at the end of the newest block, behind which no tag of the array is
current. -/
theorem Layout.store (h : V.Layout floor) (hb : b + 1 = V.size) {i : Instruction} {name : String}
    {e : Int} (he : V.epoch name = some e) (hfresh : V.insts i.id = none) (hblock : i.block = b)
    (hop : i.op = .store) (hmem : i.memory.map (·.array) = some name)
    (htags : ∀ t ∈ instTags i, V.Bounded t) {entries : BlockId → List Entry}
    (hentries : ∀ b, ∀ e ∈ entries b, e ∈ V.entries b) :
    ((V.newEpoch name entries).addInst b (V.code b) [] i).Layout floor ∧
      Grows b V ((V.newEpoch name entries).addInst b (V.code b) [] i) := by
  have hr : Revises V (V.newEpoch name entries) floor floor :=
    .epochs (name_bumped name) (epoch_le_bumped name) (rest_bumped name) hentries
  have h₁ := h.revise hr
  have hnow : (V.newEpoch name entries).epoch name = some (e + 1) := by
    obtain ⟨a, ha, rfl⟩ := map_eq_some_iff.mp he
    have hname := find?_some ha
    simp only [View.epoch, newEpoch, find?_map_epoch _ (name_bumped name), ha, map_some,
      bumped, hname, if_true]
  have hpast : ∀ t, V.Bounded t → t.array = name → some (e + 1) ≠ some t.epoch := by
    rintro t ⟨e', he', hle⟩ ht heq
    rw [ht, he, Option.some.injEq] at he'
    rw [Option.some.injEq] at heq
    lia
  have hins : Inserts (V.newEpoch name entries) ((V.newEpoch name entries).addInst b
    (V.code b) [] i) floor b (V.code b) [] (.inst i.id) := by
    refine .addInst (h.graph.valid b |>.mpr ⟨?_, by lia⟩) hfresh hblock (append_nil _).symm
      (fun hl => ?_) (fun a _ ha => ⟨rfl, fun y t ht hta => ?_, fun t ht hta => ?_⟩) ?_
    · have := h.graph.start
      lia
    · rw [hop] at hl
      cases hl
    · rw [hmem, Option.some.injEq] at ha
      rw [← ha, hnow]
      exact hpast t (h.bounded ht) (hta.trans ha.symm)
    · rw [hmem, Option.some.injEq] at ha
      rw [← ha, hnow]
      exact hpast t (htags t ht) (hta.trans ha.symm)
    · rw [if_neg (by rw [hop]; nofun)]
      exact h₁.admits_end hb fun t ht => (hr.grows 0).bounded (htags t ht)
  exact ⟨h₁.insert hins,
    (hr.grows b).trans (hins.grows fun _ _ => Int.le_refl _) (Int.le_refl _)⟩

end View

namespace State

variable {s : State} {b : BlockId} {name : String}

theorem view_bumpEpoch : (s.bumpEpoch name).view =
    { s.view with arrays := s.view.arrays.map (View.bumped name) } :=
  rfl

/-- A block that is not behind another forgets none of its values. -/
theorem entries_forgetLoads {c : BlockId} (hb : b ∉ s.view.doms c) :
    (s.forgetLoads b name).view.entries c = s.view.entries c := by
  simp only [view, entriesOf, block?_forgetLoads]
  cases hc : s.block? c with
  | none => rfl
  | some blk =>
    have hdoms : s.view.doms c = blk.dominators := by simp [View.doms, view, hc, Block.shape]
    rw [hdoms] at hb
    simp [hb]

/-- Forgetting loads only takes values from what blocks know. -/
theorem view_forgetLoads : (s.forgetLoads b name).view =
      { s.view with entries := (s.forgetLoads b name).view.entries } ∧
    ∀ b', ∀ e ∈ (s.forgetLoads b name).view.entries b', e ∈ s.view.entries b' := by
  refine ⟨View.ext ?_ ?_ rfl rfl ?_ rfl ?_ rfl, fun b' e => (entriesOf_forgetLoads s b name b' e).1⟩
  · simp [view, forgetLoads]
  · exact funext (map_block?_forgetLoads _ (fun _ _ => rfl) s b name)
  · funext b'
    exact code_congr (timelineOf_forgetLoads s b name b') fun slot _ => by cases slot <;> rfl
  · funext b'
    simp only [view]
    rw [map_block?_forgetLoads _ fun _ _ => rfl]

theorem forgetLoads_timelines (h : Timelines s) : Timelines (s.forgetLoads b name) := by
  refine h.congr (fun _ => rfl) (fun _ _ hi => h.blank hi) (timelineOf_forgetLoads s b name)
    (fun b' => congrArg (Option.getD · []) (map_block?_forgetLoads (·.table)
    (fun _ _ => rfl) s b name b')) (fun _ => rfl) fun b' blk p hb hp => ?_
  rw [block?_forgetLoads] at hb
  obtain ⟨blk₀, hb₀, rfl⟩ := map_eq_some_iff.mp hb
  refine .inr ⟨blk₀, hb₀, ?_⟩
  split at hp <;> exact hp

end State

/-! ## Stores -/

namespace Laid

variable {floor b : BlockId} {s : State} {x y : Value}

/-- What a store changes: it is new at the end of its block, its array begins a new epoch, and
blocks behind it forget values. -/
theorem storeAt_exact (h : Laid floor s) (hb : (s.view.graph b).isSome)
    (name : String) (epoch : Int) (x y : Value) : ∃ i : Instruction,
      i.op = .store ∧ i.x = x.operand ∧ i.y = y.operand ∧ i.block = b ∧ i.active = true ∧
      i.memory = some ⟨name, epoch⟩ ∧ instTags i = tagsOf x.src ++ tagsOf y.src ∧
      s.view.insts i.id = none ∧ Timelines (s.storeAt b name epoch x y) ∧
      (s.storeAt b name epoch x y).view =
        (s.view.newEpoch name (s.storeAt b name epoch x y).view.entries).addInst b
        (s.view.code b) [] i ∧
      (∀ c, ∀ e ∈ (s.storeAt b name epoch x y).view.entries c, e ∈ s.view.entries c) ∧
      ∀ c, b ∉ s.view.doms c → (s.storeAt b name epoch x y).view.entries c = s.view.entries c := by
  obtain ⟨hfresh, hview, ht⟩ := h.emitEffect_exact (x := x) (y := y) hb .store nofun
  unfold State.storeAt
  dsimp only
  generalize s.emitEffect b .store x y = r at *
  obtain ⟨store, s₁⟩ := r
  dsimp only at hfresh hview ht ⊢
  let d : State.Draft := ⟨.store, x.operand, y.operand, x.src, y.src⟩
  let i : Instruction := { d.instruction b store.id with memory := some ⟨name, epoch⟩ }
  have hself : s₁.view.insts store.id = some (d.instruction b store.id) := by
    rw [hview]
    exact Function.update_self ..
  obtain ⟨i₀, hi₀, hne, hface⟩ := inst?_of_view hself
  have hi : face { i₀ with memory := some ⟨name, epoch⟩ } = i := by
    show { face i₀ with memory := some ⟨name, epoch⟩ } = i
    rw [hface]
  have hview₂ : (s₁.modifyInst store.id fun i => { i with memory := some ⟨name, epoch⟩ }).view =
      s.view.addInst b (s.view.code b) [] i := by
    rw [view_modifyInst hi₀ hne hne, hi, hview]
    exact View.ext rfl rfl (Function.update_idem ..) rfl rfl rfl rfl rfl
  have ht₂ : Timelines (s₁.modifyInst store.id
    fun i => { i with memory := some ⟨name, epoch⟩ }) := by
    refine ht.modifyInst (fun _ => rfl) (fun _ => rfl) fun i hi hop => ?_
    cases hi₀.symm.trans hi
    exact absurd hop hne
  generalize (s₁.modifyInst store.id fun i => { i with memory := some ⟨name, epoch⟩ }) = s₂ at *
  obtain ⟨hview₃, hsub⟩ := @view_forgetLoads (s₂.bumpEpoch name) b name
  have hkeep := fun c => @entries_forgetLoads (s₂.bumpEpoch name) b name c
  have ht₃ : Timelines ((s₂.bumpEpoch name).forgetLoads b name) :=
    forgetLoads_timelines (ht₂.of_arenas rfl rfl rfl)
  generalize (s₂.bumpEpoch name).forgetLoads b name = t at *
  rw [view_bumpEpoch, hview₂] at hview₃ hsub
  simp only [view_bumpEpoch, hview₂] at hkeep
  exact ⟨i, rfl, rfl, rfl, rfl, rfl, rfl, append_nil _, hfresh, ht₃, hview₃, hsub, hkeep⟩

/-- The store of a value at an address stands at the end of the newest block, and no tag of the
array is current behind it. -/
theorem storeAt (h : Laid floor s) (hb : b + 1 = s.view.size) {name : String} {e epoch : Int}
    (he : s.view.epoch name = some e) (hx : s.view.BoundedSource x.src)
    (hy : s.view.BoundedSource y.src) :
    Laid floor (s.storeAt b name epoch x y) ∧
      View.Grows b s.view (s.storeAt b name epoch x y).view ∧
      (s.storeAt b name epoch x y).view.size = s.view.size ∧
      (s.storeAt b name epoch x y).view.graph = s.view.graph := by
  obtain ⟨i, hop, -, -, hblock, -, hmem, htags, hfresh, ht, hview, hsub, -⟩ :=
    h.storeAt_exact (h.valid_newest hb) name epoch x y
  have htags' : ∀ t ∈ instTags i, s.view.Bounded t := by
    intro t ht
    rw [htags] at ht
    exact (mem_append.mp ht).elim (hx t) (hy t)
  obtain ⟨hl, hg⟩ := h.layout.store hb he hfresh hblock hop (by rw [hmem]; rfl) htags' hsub
  exact ⟨⟨ht, hview ▸ hl⟩, hview ▸ hg, by rw [hview]; rfl, by rw [hview]; rfl⟩

/-- A store leaves open joins and deferred branches alone. -/
theorem storeAt_frame (name : String) (epoch : Int) :
    (s.storeAt b name epoch x y).deferrals = s.deferrals ∧
      (s.storeAt b name epoch x y).contexts.map (·.kind) = s.contexts.map (·.kind) := by
  have hf : ((s.emitEffect b .store x y).2.modifyInst (s.emitEffect b .store x y).1.id fun i =>
      { i with memory := some ⟨name, epoch⟩ }).frame = s.frame := by
    rw [frame_modifyInst]
    exact frame_place ..
  exact ⟨congrArg (·.2.2.1) hf, congrArg (·.2.2.2) hf⟩

end Laid

/-! ## Blocks and edges -/

namespace View

variable {V : View} {floor b b₀ p c : BlockId}

/-- A view with other blocks. -/
def withGraph (V : View) (size : Nat) (graph : BlockId → Option Block) : View :=
  { V with size := size, graph := graph }

/-- Nothing carries the current tag of an array. -/
def NoCurrent (V : View) (floor : BlockId) : Prop :=
  ∀ x t, t ∈ V.tagsAt floor x → V.epoch t.array ≠ some t.epoch

/-- The layout does not depend on edges, and a loop may start where no tag is current. -/
theorem Layout.withGraph (h : V.Layout floor) {size : Nat} {graph : BlockId → Option Block}
    (hG : (V.withGraph size graph).Graph) (hsize : V.size ≤ size)
    (hkeep : ∀ {b blk}, V.graph b = some blk → ∃ blk', graph b = some blk' ∧
      blk'.dominators = blk.dominators ∧ blk'.join = blk.join)
    (hloop : (∀ l, (V.withGraph size graph).join l = .loop → V.join l = .loop) ∨
      V.NoCurrent floor) :
    (V.withGraph size graph).Layout floor ∧ ∀ b₀, Grows b₀ V (V.withGraph size graph) := by
  have g : ∀ b₀, Grows b₀ V (V.withGraph size graph) := fun b₀ =>
    ⟨hsize, hkeep, fun _ => .refl _, fun hi => ⟨_, hi, rfl, rfl, rfl, fun _ => ⟨rfl, rfl⟩⟩,
      fun hv => ⟨_, hv, rfl, rfl, rfl⟩, fun he => ⟨_, he, Int.le_refl _⟩, fun hz => .inl hz⟩
  refine ⟨⟨hG, h.nodup, h.owner, h.marked, fun hi => ?_, fun hv => ?_, h.lead, h.entries, h.memory,
    h.phis, h.arrays, h.bounded, fun {b x t} hx ht he => ?_⟩, g⟩
  · obtain ⟨hid, hmem, hb⟩ := h.listed hi
    exact ⟨hid, hmem, (g 0).isSome hb⟩
  · obtain ⟨hmem, hb⟩ := h.listedMark hv
    exact ⟨hmem, (g 0).isSome hb⟩
  · obtain ⟨hst, hle⟩ := h.current hx ht he
    refine ⟨hst, fun l hl => ?_⟩
    rcases hloop with hloop | hnone
    · exact hle l (hloop l hl)
    · exact absurd he (hnone x t ht)

/-- The blocks with one more. -/
def pushGraph (V : View) (blk : Block) : BlockId → Option Block :=
  Function.update V.graph V.size (some blk)

theorem pushGraph_apply (V : View) (blk : Block) (b : BlockId) :
    V.pushGraph blk b = if b = V.size then some blk else V.graph b :=
  Function.update_apply ..

theorem Graph.size_not (h : V.Graph) : V.graph V.size = none := by
  cases hg : V.graph V.size with
  | none => rfl
  | some blk =>
    have := ((h.valid V.size).mp (by rw [hg]; rfl)).2
    lia

/-- Dominators come before what they dominate. -/
theorem Graph.le_of_mem_doms (h : V.Graph) {d : BlockId} (hd : d ∈ V.doms b) : 0 ≤ d ∧ d ≤ b := by
  cases hg : V.graph b with
  | none => simp [doms, hg] at hd
  | some blk =>
    have hb : (V.graph b).isSome := by
      rw [hg]
      rfl
    rw [h.doms_eq hb] at hd
    rcases mem_cons.mp hd with rfl | hd
    · exact ⟨((h.valid d).mp hb).1, Int.le_refl _⟩
    · obtain ⟨h0, hlt⟩ := h.lt hd
      exact ⟨h0, Int.le_of_lt hlt⟩

section Push

variable {blk : Block}

theorem pushGraph_of_ne (hb : b ≠ V.size) : V.pushGraph blk b = V.graph b := by
  rw [pushGraph_apply, if_neg hb]

theorem pushGraph_size : V.pushGraph blk V.size = some blk := by
  rw [pushGraph_apply, if_pos rfl]

theorem Graph.ne_size (h : V.Graph) (hb : (V.graph b).isSome) : b ≠ V.size := by
  rintro rfl
  rw [h.size_not] at hb
  cases hb

theorem Graph.parents_push (h : V.Graph) (hparents : blk.parents = []) (b : BlockId) :
    (V.withGraph (V.size + 1) (V.pushGraph blk)).parents b = V.parents b := by
  simp only [parents, View.withGraph]
  by_cases hb : b = V.size
  · rw [hb, pushGraph_size, h.size_not, map_some, getD_some, hparents]
    rfl
  · rw [pushGraph_of_ne hb]

theorem Graph.children_push (h : V.Graph) (hchildren : blk.children = []) (b : BlockId) :
    (V.withGraph (V.size + 1) (V.pushGraph blk)).children b = V.children b := by
  simp only [children, View.withGraph]
  by_cases hb : b = V.size
  · rw [hb, pushGraph_size, h.size_not, map_some, getD_some, hchildren]
    rfl
  · rw [pushGraph_of_ne hb]

theorem doms_push {ds : List BlockId} (hdoms : blk.dominators = (V.size : BlockId) :: ds)
    (b : BlockId) :
    (V.withGraph (V.size + 1) (V.pushGraph blk)).doms b =
      if b = V.size then (V.size : BlockId) :: ds else V.doms b := by
  simp only [doms, View.withGraph]
  split
  · rename_i hb
    rw [hb, pushGraph_size, map_some, getD_some, hdoms]
  · rename_i hb
    rw [pushGraph_of_ne hb]

theorem above_push {ds : List BlockId} (hdoms : blk.dominators = (V.size : BlockId) :: ds)
    (b : BlockId) :
    (V.withGraph (V.size + 1) (V.pushGraph blk)).above b = if b = V.size then ds else
    V.above b := by
  simp only [above, doms_push hdoms]
  split <;> rfl

/-- The dominators of a block are those of each of them, from that one on. -/
theorem Graph.chain_push (h : V.Graph) (hp : (V.graph p).isSome)
    (hdoms : blk.dominators = (V.size : BlockId) :: V.doms p) {L T : List BlockId} {d : BlockId}
    (hL : (V.withGraph (V.size + 1) (V.pushGraph blk)).doms b = L ++ d :: T) :
    (V.withGraph (V.size + 1) (V.pushGraph blk)).doms d = d :: T := by
  rw [doms_push hdoms] at hL ⊢
  split at hL
  · cases L with
    | nil =>
      obtain ⟨rfl, rfl⟩ := List.cons.inj hL
      rw [if_pos rfl]
    | cons l L =>
      obtain ⟨-, hL⟩ := List.cons.inj hL
      have hle := (h.le_of_mem_doms (b := p) (d := d) (by rw [hL]; simp)).2
      have hlt := ((h.valid p).mp hp).2
      rw [if_neg (by lia)]
      exact h.chain hL
  · rw [if_neg]
    · exact h.chain hL
    · rintro rfl
      have hnone := h.chain hL
      rw [doms, h.size_not] at hnone
      cases hnone

/-- A new block below an old one. -/
theorem Graph.push (h : V.Graph) (hp : (V.graph p).isSome) (blk : Block) (hid : blk.id = V.size)
    (hdoms : blk.dominators = (V.size : BlockId) :: V.doms p) (hparents : blk.parents = [])
    (hchildren : blk.children = []) : (V.withGraph (V.size + 1) (V.pushGraph blk)).Graph where
  start := Nat.le_succ_of_le h.start
  valid b := by
    show (V.pushGraph blk b).isSome = true ↔ 0 ≤ b ∧ b < ((V.size + 1 : Nat) : Int)
    by_cases hb : b = V.size
    · rw [hb, pushGraph_size]
      exact ⟨fun _ => ⟨by lia, by lia⟩, fun _ => rfl⟩
    · rw [pushGraph_of_ne hb, h.valid b]
      lia
  id_eq := fun {b blk'} hb => by
    have hb : V.pushGraph blk b = some blk' := hb
    rw [pushGraph_apply] at hb
    split at hb
    · rename_i he
      cases hb
      rw [hid, he]
    · exact h.id_eq hb
  doms_eq := fun {b} hb => by
    rw [doms_push hdoms, above_push hdoms]
    split
    · rename_i he
      rw [he]
    · rename_i he
      exact h.doms_eq (pushGraph_of_ne he ▸ hb)
  chain := h.chain_push hp hdoms
  lt := fun {b d} hd => by
    rw [above_push hdoms] at hd
    split at hd
    · obtain ⟨h0, hle⟩ := h.le_of_mem_doms hd
      have hlt := ((h.valid p).mp hp).2
      exact ⟨h0, by lia⟩
    · exact h.lt hd
  root := fun {b} hb hne => by
    rw [above_push hdoms]
    split
    · rw [h.doms_eq hp]
      by_cases hp0 : p = 0
      · rw [hp0]
        exact mem_cons_self ..
      · exact mem_cons_of_mem _ (h.root hp hp0)
    · rename_i he
      exact h.root (pushGraph_of_ne he ▸ hb) hne
  edge := fun {b c} hc => by
    rw [h.children_push hchildren] at hc
    obtain ⟨hsome, hparent, hdom, hback⟩ := h.edge hc
    have hne := h.ne_size hsome
    rw [h.parents_push hparents, above_push hdoms, doms_push hdoms, if_neg hne,
      if_neg (h.ne_size (h.parent hparent).1)]
    simp only [join, View.withGraph, pushGraph_of_ne hne]
    exact ⟨hsome, hparent, hdom, hback⟩
  parent := fun {q c} hq => by
    rw [h.parents_push hparents] at hq
    obtain ⟨hsome, hc⟩ := h.parent hq
    rw [h.children_push hchildren]
    simp only [View.withGraph, pushGraph_of_ne (h.ne_size hsome)]
    exact ⟨hsome, hc⟩
  meet := fun {j q r} hj d hdq hdr => by
    rw [h.parents_push hparents] at hj
    have hq := h.parent (p := q) (c := j) (by rw [hj]; simp)
    have hr := h.parent (p := r) (c := j) (by rw [hj]; simp)
    rw [doms_push hdoms, if_neg (h.ne_size hq.1)] at hdq
    rw [doms_push hdoms, if_neg (h.ne_size hr.1)] at hdr
    rw [above_push hdoms, if_neg (h.ne_size (h.edge hq.2).1)]
    exact h.meet hj d hdq hdr

end Push

theorem mem_addChild {blk : Block} {d : BlockId} :
    d ∈ (blk.addChild c).children ↔ d = c ∨ d ∈ blk.children := by
  unfold Block.addChild
  split
  · rename_i h
    rw [contains_iff_mem] at h
    exact ⟨.inr, fun hd => hd.elim (fun he => he ▸ h) id⟩
  · simp [or_comm]

theorem mem_addParent {blk : Block} {d : BlockId} :
    d ∈ (blk.addParent p).parents ↔ d = p ∨ d ∈ blk.parents := by
  unfold Block.addParent
  split
  · rename_i h
    rw [contains_iff_mem] at h
    exact ⟨.inr, fun hd => hd.elim (fun he => he ▸ h) id⟩
  · simp [or_comm]

/-- A block with an edge to another block, and with one from another block. -/
def linked (p c b : BlockId) (blk : Block) : Block :=
  let blk := if b = p then blk.addChild c else blk
  if b = c then blk.addParent p else blk

theorem linked_rest (p c b : BlockId) (blk : Block) : (linked p c b blk).id = blk.id ∧
    (linked p c b blk).dominators = blk.dominators ∧ (linked p c b blk).join = blk.join := by
  unfold linked Block.addChild Block.addParent
  dsimp only
  split <;> split <;> (try split) <;> (try split) <;> exact ⟨rfl, rfl, rfl⟩

theorem linked_children (p c b : BlockId) (blk : Block) : (linked p c b blk).children =
    if b = p then (blk.addChild c).children else blk.children := by
  unfold linked Block.addParent
  dsimp only
  split <;> split <;> (try split) <;> rfl

theorem linked_parents (p c b : BlockId) (blk : Block) : (linked p c b blk).parents =
    if b = c then (blk.addParent p).parents else blk.parents := by
  unfold linked Block.addParent Block.addChild
  dsimp only
  split <;> split <;> (try split) <;> (try split) <;> simp_all

/-- The blocks with one more edge. -/
def linkGraph (V : View) (p c b : BlockId) : Option Block :=
  (V.graph b).map (linked p c b)

section Link

theorem isSome_linkGraph : (V.linkGraph p c b).isSome = (V.graph b).isSome :=
  isSome_map

theorem map_linkGraph {α : Type} {f : Block → α} (hf : ∀ b blk, f (linked p c b blk) = f blk)
    (b : BlockId) : (V.linkGraph p c b).map f = (V.graph b).map f := by
  rw [linkGraph, Option.map_map]
  congr 1
  funext blk
  exact hf b blk

theorem doms_link (b : BlockId) : (V.withGraph V.size (V.linkGraph p c)).doms b = V.doms b :=
  congrArg (·.getD []) (map_linkGraph (fun b blk => (linked_rest p c b blk).2.1) b)

theorem above_link (b : BlockId) : (V.withGraph V.size (V.linkGraph p c)).above b = V.above b := by
  rw [above, doms_link, above]

theorem join_link (b : BlockId) : (V.withGraph V.size (V.linkGraph p c)).join b = V.join b :=
  congrArg (·.getD .none) (map_linkGraph (fun b blk => (linked_rest p c b blk).2.2) b)

theorem children_link (hp : (V.graph p).isSome) (b : BlockId) :
    (V.withGraph V.size (V.linkGraph p c)).children b =
      if b = p ∧ c ∉ V.children b then V.children b ++ [c] else V.children b := by
  rcases Option.eq_none_or_eq_some (V.graph b) with hb | ⟨blk, hb⟩
  · have hne : b ≠ p := by
      rintro rfl
      rw [hb] at hp
      cases hp
    simp [children, View.withGraph, linkGraph, hb, hne]
  · simp only [children, View.withGraph, linkGraph, hb, map_some, getD_some, linked_children,
      Block.addChild, contains_iff_mem]
    by_cases h : b = p <;> by_cases hc : c ∈ blk.children <;> simp [h, hc]

theorem parents_link (hc : (V.graph c).isSome) (b : BlockId) :
    (V.withGraph V.size (V.linkGraph p c)).parents b =
      if b = c ∧ p ∉ V.parents b then V.parents b ++ [p] else V.parents b := by
  rcases Option.eq_none_or_eq_some (V.graph b) with hb | ⟨blk, hb⟩
  · have hne : b ≠ c := by
      rintro rfl
      rw [hb] at hc
      cases hc
    simp [parents, View.withGraph, linkGraph, hb, hne]
  · simp only [parents, View.withGraph, linkGraph, hb, map_some, getD_some, linked_parents,
      Block.addParent, contains_iff_mem]
    by_cases h : b = c <;> by_cases hp : p ∈ blk.parents <;> simp [h, hp]

theorem mem_children_link (hp : (V.graph p).isSome) {d : BlockId} :
    d ∈ (V.withGraph V.size (V.linkGraph p c)).children b ↔ d ∈ V.children b ∨ b = p ∧ d = c := by
  rw [children_link hp]
  split <;> grind

theorem mem_parents_link (hc : (V.graph c).isSome) {d : BlockId} :
    d ∈ (V.withGraph V.size (V.linkGraph p c)).parents b ↔ d ∈ V.parents b ∨ b = c ∧ d = p := by
  rw [parents_link hc]
  split <;> grind

/-- A new edge between blocks, which closes a loop or goes forward. -/
theorem Graph.link (h : V.Graph) (hp : (V.graph p).isSome) (hc : (V.graph c).isSome)
    (habove : ∀ d ∈ V.above c, d ∈ V.doms p) (hback : c ≤ p → V.join c = .loop)
    (hmeet : ∀ q, V.parents c = [q] → q ≠ p → ∀ d ∈ V.doms q, d ∈ V.doms p → d ∈ V.above c) :
    (V.withGraph V.size (V.linkGraph p c)).Graph where
  start := h.start
  valid b := by
    show (V.linkGraph p c b).isSome = true ↔ _
    rw [isSome_linkGraph]
    exact h.valid b
  id_eq := fun {b blk} hb => by
    obtain ⟨blk₀, hb₀, rfl⟩ := map_eq_some_iff.mp hb
    rw [(linked_rest p c b blk₀).1]
    exact h.id_eq hb₀
  doms_eq := fun {b} hb => by
    rw [doms_link, above_link]
    exact h.doms_eq (isSome_linkGraph ▸ hb)
  chain := fun {b L d T} hL => by
    rw [doms_link] at hL ⊢
    exact h.chain hL
  lt := fun {b d} hd => h.lt (above_link b ▸ hd)
  root := fun {b} hb hne => by
    rw [above_link]
    exact h.root (isSome_linkGraph ▸ hb) hne
  edge := fun {b c'} hc' => by
    rw [mem_parents_link hc, above_link, doms_link, join_link]
    show (V.linkGraph p c c').isSome = true ∧ _
    rw [isSome_linkGraph]
    rcases (mem_children_link hp).mp hc' with hc' | ⟨rfl, rfl⟩
    · obtain ⟨hsome, hparent, hdom, hloop⟩ := h.edge hc'
      exact ⟨hsome, .inl hparent, hdom, hloop⟩
    · exact ⟨hc, .inr ⟨rfl, rfl⟩, habove, hback⟩
  parent := fun {q c'} hq => by
    rw [mem_children_link hp]
    show (V.linkGraph p c q).isSome = true ∧ _
    rw [isSome_linkGraph]
    rcases (mem_parents_link hc).mp hq with hq | ⟨rfl, rfl⟩
    · obtain ⟨hsome, hchild⟩ := h.parent hq
      exact ⟨hsome, .inl hchild⟩
    · exact ⟨hp, .inr ⟨rfl, rfl⟩⟩
  meet := fun {j q r} hj d hdq hdr => by
    rw [doms_link] at hdq hdr
    rw [above_link]
    rw [parents_link hc] at hj
    split at hj
    · -- the new edge is the second one
      rename_i hnew
      obtain ⟨rfl, hnew⟩ := hnew
      have hj : V.parents j ++ [p] = [q] ++ [r] := hj
      obtain ⟨hq, hr⟩ : V.parents j = [q] ∧ p = r := by
        simpa using append_inj' hj rfl
      subst hr
      exact hmeet q hq (by rintro rfl; simp [hq] at hnew) d hdq hdr
    · exact h.meet hj d hdq hdr

end Link

end View

namespace State

variable {s : State} {b p c : BlockId} {blk : Block}

theorem block?_new (settings : Settings) (b : BlockId) : (State.new settings).block? b =
    if b = 0 then
      some { id := 0, kind := .entry, children := [1], dominators := [0] }
    else if b = 1 then
      some { id := 1, kind := .main, parents := [0], dominators := [1, 0] }
    else none := by
  unfold State.block? State.new
  by_cases h : 0 ≤ b
  · obtain ⟨n, rfl⟩ := Int.eq_ofNat_of_zero_le h
    match n with
    | 0 => rfl
    | 1 => rfl
    | n + 2 =>
      rw [if_pos h, if_neg (by lia), if_neg (by lia)]
      rfl
  · rw [if_neg h, if_neg (by lia), if_neg (by lia)]

theorem cases_block?_new {settings : Settings} (hb : (State.new settings).block? b = some blk) :
    b = entryBlock ∧ blk = { id := 0, kind := .entry, children := [1], dominators := [0] } ∨
      b = startBlock ∧ blk = { id := 1, kind := .main, parents := [0], dominators := [1, 0] } := by
  rw [block?_new] at hb
  split at hb
  · exact .inl ⟨‹_›, Option.some.inj hb.symm⟩
  · split at hb
    · exact .inr ⟨‹_›, Option.some.inj hb.symm⟩
    · cases hb

theorem inst?_new (settings : Settings) (id : InstId) : (State.new settings).inst? id = none := by
  unfold State.inst?
  split <;> rfl

/-- Nothing is in the blocks yet. -/
theorem map_block?_new (settings : Settings) {α : Type} {f : Block → List α} (hf : ∀ blk : Block,
    blk.timeline = [] → blk.entries = [] → f blk = []) (b : BlockId) :
    (((State.new settings).block? b).map f).getD [] = [] := by
  cases hb : (State.new settings).block? b with
  | none => rfl
  | some blk => rcases cases_block?_new hb with ⟨-, rfl⟩ | ⟨-, rfl⟩ <;> exact hf _ rfl rfl

theorem timelineOf_new (settings : Settings) (b : BlockId) :
    (State.new settings).timelineOf b = [] :=
  map_block?_new settings (fun _ htime _ => htime) b

theorem tabled_new (settings : Settings) : (State.new settings).Tabled := by
  intro b name
  rw [timelineOf_new, versionsOf, tableOf]
  cases hb : (State.new settings).block? b with
  | none => rfl
  | some blk => rcases cases_block?_new hb with ⟨-, rfl⟩ | ⟨-, rfl⟩ <;> rfl

theorem entriesOf_new (settings : Settings) (b : BlockId) : (State.new settings).entriesOf b = [] :=
  map_block?_new settings (fun _ _ hentries => hentries) b

theorem block?_push (s : State) (blk : Block) (b : BlockId) :
    { s with blocks := s.blocks.push blk }.block? b =
      if b = s.blocks.size then some blk else s.block? b := by
  unfold block?
  by_cases h : 0 ≤ b
  · simp only [h, if_true, Array.getElem?_push]
    by_cases he : b = s.blocks.size
    · rw [if_pos he, if_pos (by lia)]
    · rw [if_neg he, if_neg (by lia)]
  · rw [if_neg h, if_neg h, if_neg (by lia)]

theorem block?_size (s : State) : s.block? s.blocks.size = none := by
  unfold block?
  split
  · exact Array.getElem?_eq_none (by lia)
  · rfl

/-- A new block without code is seen in the graph alone. -/
theorem view_push (htime : blk.timeline = []) (hentries : blk.entries = [])
    (hvars : blk.joinVars = ∅) : { s with blocks := s.blocks.push blk }.view =
      s.view.withGraph (s.view.size + 1) (s.view.pushGraph blk.shape) := by
  have hnone := s.block?_size
  have hsame : ∀ {α : Type} (f : Block → α) (a : α), f blk = a → ∀ b,
      (({ s with blocks := s.blocks.push blk }.block? b).map f).getD a = ((s.block? b).map f).getD
      a := by
    intro α f a hf b
    rw [block?_push]
    split
    · rename_i hb
      rw [hb, hnone]
      exact hf
    · rfl
  have htimeline : ∀ b, { s with blocks := s.blocks.push blk }.timelineOf b = s.timelineOf b :=
    hsame _ [] htime
  refine View.ext ?_ ?_ rfl rfl ?_ ?_ ?_ rfl
  · simp [view, View.withGraph]
  · funext b
    simp only [view, View.withGraph, View.pushGraph_apply, block?_push]
    split
    · rfl
    · rfl
  · funext b
    exact code_congr (htimeline b) fun slot _ => by cases slot <;> rfl
  · exact funext (hsame _ [] hentries)
  · exact funext (hsame _ [] (congrArg Names.toList hvars))

theorem timelines_push (h : Timelines s) (htime : blk.timeline = []) (htable : blk.table = [])
    (hholder : blk.placeholder = none) : Timelines { s with blocks := s.blocks.push blk } := by
  have hnone := s.block?_size
  refine h.congr (fun _ => rfl) (fun _ _ hi => h.blank hi) (fun b => ?_) (fun b => ?_)
    (fun _ => rfl) fun b blk' p hb hp => ?_
  · simp only [timelineOf, block?_push]
    split
    · rename_i hb
      rw [hb, hnone]
      exact htime
    · rfl
  · simp only [tableOf, block?_push]
    split
    · rename_i hb
      rw [hb, hnone]
      exact htable
    · rfl
  · rw [block?_push] at hb
    split at hb
    · cases hb
      rw [hholder] at hp
      cases hp
    · exact .inr ⟨blk', hb, hp⟩

theorem block?_link (b : BlockId) :
    (s.link p c).block? b = (s.block? b).map (View.linked p c b) := by
  unfold link View.linked
  simp only [block?_modifyBlock]
  by_cases hc : b = c
  · subst hc
    by_cases hp : b = p
    · subst hp
      simp [Function.comp_def]
    · simp [hp]
  · by_cases hp : b = p
    · subst hp
      simp [hc]
    · simp [hc, hp]

theorem linked_same (p c b : BlockId) (blk : Block) :
    (View.linked p c b blk).timeline = blk.timeline ∧
    (View.linked p c b blk).entries = blk.entries ∧
    (View.linked p c b blk).joinVars = blk.joinVars ∧
    (View.linked p c b blk).placeholder = blk.placeholder ∧
    (View.linked p c b blk).shape = View.linked p c b blk.shape := by
  unfold View.linked Block.addChild Block.addParent Block.shape
  dsimp only
  split <;> split <;> (try split) <;> (try split) <;> exact ⟨rfl, rfl, rfl, rfl, rfl⟩

theorem table_linked (p c b : BlockId) (blk : Block) :
    (View.linked p c b blk).table = blk.table := by
  unfold View.linked Block.addChild Block.addParent
  dsimp only
  split <;> split <;> (try split) <;> (try split) <;> rfl

theorem map_block?_link {α : Type} (f : Block → α) (hf : ∀ blk, f (View.linked p c b blk) = f blk) :
    ((s.link p c).block? b).map f = (s.block? b).map f := by
  rw [block?_link, Option.map_map]
  congr 1
  funext blk
  exact hf blk

/-- Of the dominators, a new block brings its own, and the others keep theirs. -/
theorem map_dominators_addBlock (s : State) (d : BlockDraft) (b : BlockId) :
    ((s.addBlock d).2.block? b).map (·.dominators) =
      if b = s.blocks.size then some ((s.blocks.size : BlockId) :: d.dominators) else
        (s.block? b).map (·.dominators) := by
  have hlinks : ∀ (ps : List BlockId) (c : BlockId) (t : State),
      ((ps.foldl (fun s p => s.link p c) t).block? b).map (·.dominators) = (t.block? b).map
      (·.dominators) := by
    intro ps c
    induction ps with
    | nil => exact fun _ => rfl
    | cons p ps ih =>
      exact fun t => (ih _).trans (map_block?_link _ fun blk => (View.linked_rest p c b blk).2.1)
  rw [State.addBlock, hlinks, block?_push]
  split <;> rfl

theorem view_link : (s.link p c).view = s.view.withGraph s.view.size (s.view.linkGraph p c) := by
  have htime : ∀ b, (s.link p c).timelineOf b = s.timelineOf b := by
    intro b
    rw [timelineOf, map_block?_link _ fun blk => (linked_same p c b blk).1]
    rfl
  have hinst : ∀ id, (s.link p c).inst? id = s.inst? id := by
    intro id
    simp [link]
  refine View.ext ?_ ?_ ?_ ?_ ?_ ?_ ?_ ?_
  · simp [view, link, View.withGraph]
  · funext b
    simp only [view, View.withGraph, View.linkGraph, block?_link, Option.map_map]
    congr 1
    funext blk
    exact (linked_same p c b blk).2.2.2.2
  · funext id
    simp only [view, View.withGraph, hinst]
  · simp [view, link, View.withGraph]
  · funext b
    refine code_congr (htime b) fun slot _ => ?_
    cases slot <;> simp [isCode, hinst]
  · funext b
    simp only [view, View.withGraph, entriesOf]
    rw [map_block?_link _ fun blk => (linked_same p c b blk).2.1]
  · funext b
    simp only [view, View.withGraph]
    rw [map_block?_link (·.joinVars.toList) fun blk => congrArg Names.toList
      (linked_same p c b blk).2.2.1]
  · simp [view, link, View.withGraph]

theorem timelines_link (h : Timelines s) : Timelines (s.link p c) :=
  (h.modifyBlock (fun blk => by unfold Block.addChild; split <;> rfl)
    (fun blk => by unfold Block.addChild; split <;> rfl)
    (fun blk _ hp => .inr (by unfold Block.addChild at hp; split at hp <;> exact hp))).modifyBlock
    (fun blk => by unfold Block.addParent; split <;> rfl)
    (fun blk => by unfold Block.addParent; split <;> rfl)
    fun blk _ hp => .inr (by unfold Block.addParent at hp; split at hp <;> exact hp)

@[simp] theorem frame_link : (s.link p c).frame = s.frame := by
  simp [link]

theorem children_link (hp : (s.view.graph p).isSome) : (s.link p c).view.children b =
    if b = p ∧ c ∉ s.view.children b then s.view.children b ++ [c] else s.view.children b := by
  rw [view_link]
  exact View.children_link hp b

theorem parents_link (hc : (s.view.graph c).isSome) : (s.link p c).view.parents b =
    if b = c ∧ p ∉ s.view.parents b then s.view.parents b ++ [p] else s.view.parents b := by
  rw [view_link]
  exact View.parents_link hc b

theorem isSome_graph_link : ((s.link p c).view.graph b).isSome = (s.view.graph b).isSome := by
  rw [view_link]
  exact View.isSome_linkGraph

/-- The edges that there are once a block is entered from a list of blocks. -/
theorem edges_links (ps : List BlockId) (hps : ∀ q ∈ ps, (s.view.graph q).isSome)
    (hc : (s.view.graph c).isSome) (hnodup : (s.view.parents c ++ ps).Nodup)
    (hnew : ∀ q ∈ ps, c ∉ s.view.children q) :
    (∀ b, (ps.foldl (fun s p => s.link p c) s).view.children b =
      if b ∈ ps then s.view.children b ++ [c] else s.view.children b) ∧
    ∀ b, (ps.foldl (fun s p => s.link p c) s).view.parents b =
      if b = c then s.view.parents b ++ ps else s.view.parents b := by
  induction ps generalizing s with
  | nil => exact ⟨fun b => rfl, fun b => by simp⟩
  | cons q ps ih =>
    have hq := hps q (mem_cons_self ..)
    have hqps : q ∉ ps := (nodup_cons.mp (nodup_append.mp hnodup).2.1).1
    have hqc : q ∉ s.view.parents c := fun h =>
      (nodup_append.mp hnodup).2.2 q h q (mem_cons_self ..) rfl
    obtain ⟨hch, hpa⟩ := ih (s := s.link q c)
      (fun r hr => by rw [isSome_graph_link]; exact hps r (mem_cons_of_mem _ hr))
      (by rw [isSome_graph_link]; exact hc)
      (by
        rw [parents_link hc, if_pos ⟨rfl, hqc⟩, append_assoc]
        exact hnodup)
      (fun r hr => by
        rw [children_link hq, if_neg]
        · exact hnew r (mem_cons_of_mem _ hr)
        · rintro ⟨rfl, -⟩
          exact hqps hr)
    refine ⟨fun b => ?_, fun b => ?_⟩
    · rw [foldl_cons, hch, children_link hq]
      by_cases hb : b = q
      · subst hb
        simp [hqps, hnew b (mem_cons_self ..)]
      · simp [hb]
    · rw [foldl_cons, hpa, parents_link hc]
      by_cases hb : b = c
      · subst hb
        simp [hqc]
      · simp [hb]

end State

/-- A state in which nothing of another was taken away, and no store was added. -/
structure Follows (floor : BlockId) (s t : State) : Prop where
  laid : Laid floor t
  grows : ∀ b₀, View.Grows b₀ s.view t.view
  frame : t.frame = s.frame

namespace Laid

variable {floor b p c : BlockId} {s : State}

/-- An edge from a block that the dominators of its target dominate. -/
theorem link (h : Laid floor s) (hp : (s.view.graph p).isSome) (hc : (s.view.graph c).isSome)
    (habove : ∀ d ∈ s.view.above c, d ∈ s.view.doms p) (hback : c ≤ p → s.view.join c = .loop)
    (hmeet : ∀ q, s.view.parents c = [q] → q ≠ p → ∀ d ∈ s.view.doms q, d ∈ s.view.doms p →
      d ∈ s.view.above c) : Follows floor s (s.link p c) := by
  have hkeep : ∀ {b blk}, s.view.graph b = some blk → ∃ blk', s.view.linkGraph p c b = some blk' ∧
      blk'.dominators = blk.dominators ∧ blk'.join = blk.join := by
    intro b blk hb
    refine ⟨View.linked p c b blk, by rw [View.linkGraph, hb]; rfl, ?_⟩
    exact (View.linked_rest p c b blk).2
  have hl := h.layout.withGraph (h.layout.graph.link hp hc habove hback hmeet)
    (Nat.le_refl _) hkeep (.inl fun l hl => View.join_link l ▸ hl)
  rw [← view_link] at hl
  exact ⟨⟨timelines_link h.timelines, hl.1⟩, hl.2, frame_link⟩

/-- Edges to the newest block, from blocks that its dominators dominate. -/
theorem links {D : List BlockId} (ps : List BlockId) (h : Laid floor s)
    (hc : (s.view.graph c).isSome) (hD : s.view.above c = D) (hnew : ∀ q ∈ ps, q < c)
    (hps : ∀ q ∈ ps, (s.view.graph q).isSome ∧ ∀ d ∈ D, d ∈ s.view.doms q)
    (hmeet : ∀ q ∈ s.view.parents c ++ ps, ∀ r ∈ ps, q ≠ r → ∀ d ∈ s.view.doms q,
      d ∈ s.view.doms r → d ∈ D) :
    Follows floor s (ps.foldl (fun s p => s.link p c) s) ∧
      (ps.foldl (fun s p => s.link p c) s).view.size = s.view.size := by
  induction ps generalizing s with
  | nil => exact ⟨⟨h, fun b₀ => .refl b₀ _, rfl⟩, rfl⟩
  | cons q ps ih =>
    obtain ⟨hq, hdom⟩ := hps q (mem_cons_self ..)
    have hlink : Follows floor s (s.link q c) := by
      refine h.link hq hc (hD ▸ hdom) (fun hle => absurd (hnew q (mem_cons_self ..)) (by lia)) ?_
      intro r hr hne d hdr hdq
      rw [hD]
      exact hmeet r (by rw [hr]; simp) q (mem_cons_self ..) hne d hdr hdq
    have g := hlink.grows 0
    have hsize : (s.link q c).view.size = s.view.size := by
      rw [view_link]
      rfl
    have hdoms : ∀ r, (s.view.graph r).isSome → (s.link q c).view.doms r = s.view.doms r :=
      fun r hr => g.doms_eq hr
    have hparents : ∀ r ∈ (s.link q c).view.parents c, r ∈ s.view.parents c ∨ r = q := by
      intro r hr
      rw [view_link] at hr
      exact ((View.mem_parents_link hc).mp hr).imp id (·.2)
    obtain ⟨hrest, hsize'⟩ := ih hlink.laid (g.isSome hc)
      (by rw [View.above, hdoms c hc]; exact hD) (fun r hr => hnew r (mem_cons_of_mem _ hr))
      (fun r hr => by
        obtain ⟨hsome, hdom⟩ := hps r (mem_cons_of_mem _ hr)
        exact ⟨g.isSome hsome, hdoms r hsome ▸ hdom⟩)
      (fun r hr r' hr' hne d hd hd' => by
        have hr₀ : r ∈ s.view.parents c ++ q :: ps := by
          rcases mem_append.mp hr with hr | hr
          · rcases hparents r hr with hr | rfl <;> simp [*]
          · simp [hr]
        have hsome : (s.view.graph r).isSome := by
          rcases mem_append.mp hr₀ with hr | hr
          · exact (h.layout.graph.parent hr).1
          · exact (hps r hr).1
        have hsome' := (hps r' (mem_cons_of_mem _ hr')).1
        rw [hdoms r hsome] at hd
        rw [hdoms r' hsome'] at hd'
        exact hmeet r hr₀ r' (mem_cons_of_mem _ hr') hne d hd hd')
    exact ⟨⟨hrest.laid, fun b₀ => (hlink.grows b₀).trans (hrest.grows b₀) (Int.le_refl _),
      hrest.frame.trans hlink.frame⟩, hsize'.trans hsize⟩

/-- A new block below a block `p`, entered from blocks that the dominators of `p` dominate. -/
theorem addBlock (h : Laid floor s) {d : BlockDraft} (hp : (s.view.graph p).isSome)
    (hdoms : d.dominators = s.view.doms p)
    (hps : ∀ q ∈ d.parents, (s.view.graph q).isSome ∧ ∀ x ∈ s.view.doms p, x ∈ s.view.doms q)
    (hmeet : ∀ q ∈ d.parents, ∀ r ∈ d.parents, q ≠ r → ∀ x ∈ s.view.doms q, x ∈ s.view.doms r →
      x ∈ s.view.doms p)
    (hloop : d.join = .loop → s.view.NoCurrent floor) :
    Follows floor s (s.addBlock d).2 ∧ (s.addBlock d).1 = s.view.size ∧
      (s.addBlock d).2.view.size = s.view.size + 1 ∧
      (s.addBlock d).2.view.doms s.view.size = (s.view.size : BlockId) :: s.view.doms p ∧
      (s.addBlock d).2.view.join s.view.size = d.join := by
  let n : BlockId := s.view.size
  let blk : Block := { id := n, kind := d.kind, join := d.join, dominators := n :: d.dominators }
  let s₁ : State := { s with blocks := s.blocks.push blk }
  have hview : s₁.view = s.view.withGraph (s.view.size + 1) (s.view.pushGraph blk.shape) :=
    view_push rfl rfl rfl
  have hself : s.view.pushGraph blk.shape n = some blk.shape := View.pushGraph_size
  have hkeep : ∀ {b blk₀}, s.view.graph b = some blk₀ → ∃ blk', s.view.pushGraph blk.shape b =
      some blk' ∧ blk'.dominators = blk₀.dominators ∧ blk'.join = blk₀.join := by
    intro b blk₀ hb
    refine ⟨blk₀, (View.pushGraph_of_ne (h.layout.graph.ne_size ?_)).trans hb, rfl, rfl⟩
    rw [hb]
    rfl
  have hl := h.layout.withGraph
    (h.layout.graph.push hp blk.shape rfl (by rw [← hdoms]; rfl) rfl rfl)
    (Nat.le_succ _) hkeep (by
      by_cases hd : d.join = .loop
      · exact .inr (hloop hd)
      · refine .inl fun l hl => ?_
        by_cases hln : l = n
        · simp only [View.join, View.withGraph, hln, hself] at hl
          exact absurd hl hd
        · simpa only [View.join, View.withGraph, View.pushGraph_of_ne hln] using hl)
  rw [← hview] at hl
  have h₁ : Laid floor s₁ := ⟨timelines_push h.timelines rfl rfl rfl, hl.1⟩
  have hg₁ : s₁.view.graph n = some blk.shape := by
    rw [hview]
    exact hself
  have hdoms₁ : s₁.view.doms n = n :: s.view.doms p := by
    simp [View.doms, hg₁, blk, Block.shape, hdoms]
  have hold : ∀ q, (s.view.graph q).isSome → s₁.view.doms q = s.view.doms q := fun q hq =>
    (hl.2 0).doms_eq hq
  obtain ⟨hlinks, hsize⟩ := links (c := n) (D := s.view.doms p) d.parents h₁ (by rw [hg₁]; rfl)
    (by rw [View.above, hdoms₁]; rfl)
    (fun q hq => ((h.layout.graph.valid q).mp (hps q hq).1).2)
    (fun q hq => ⟨(hl.2 0).isSome (hps q hq).1, by rw [hold q (hps q hq).1]; exact (hps q hq).2⟩)
    (fun q hq r hr hne x hx hx' => by
      have hq' : q ∈ d.parents := by
        simpa [View.parents, hg₁, blk, Block.shape] using hq
      rw [hold q (hps q hq').1] at hx
      rw [hold r (hps r hr).1] at hx'
      exact hmeet q hq' r hr hne x hx hx')
  refine ⟨⟨hlinks.laid, fun b₀ => (hl.2 b₀).trans (hlinks.grows b₀) (Int.le_refl _), hlinks.frame⟩,
    rfl, hsize.trans (by rw [hview]; rfl), ?_, ?_⟩
  · refine ((hlinks.grows 0).doms_eq (by rw [hg₁]; rfl)).trans hdoms₁
  · refine ((hlinks.grows 0).join_eq (by rw [hg₁]; rfl)).trans ?_
    show ((s₁.view.graph n).map (·.join)).getD .none = d.join
    rw [hg₁]
    rfl

/-- The edges that there are once a block is made. -/
theorem edges_addBlock (h : Laid floor s) {d : BlockDraft}
    (hps : ∀ q ∈ d.parents, (s.view.graph q).isSome) (hnodup : d.parents.Nodup) :
    (∀ b, (s.addBlock d).2.view.children b = if b ∈ d.parents then
      s.view.children b ++ [(s.view.size : BlockId)] else s.view.children b) ∧
    ∀ b : BlockId, (s.addBlock d).2.view.parents b =
      if b = s.view.size then d.parents else s.view.parents b := by
  let n : BlockId := s.view.size
  let blk : Block := { id := n, kind := d.kind, join := d.join, dominators := n :: d.dominators }
  let s₁ : State := { s with blocks := s.blocks.push blk }
  have hview : s₁.view = s.view.withGraph (s.view.size + 1) (s.view.pushGraph blk.shape) :=
    view_push rfl rfl rfl
  have hnone : s.view.graph n = none := h.layout.graph.size_not
  have hgraph : ∀ b, s₁.view.graph b = if b = n then some blk.shape else s.view.graph b := by
    intro b
    rw [hview]
    exact s.view.pushGraph_apply blk.shape b
  have hchildren : ∀ b, s₁.view.children b = s.view.children b := fun b => by
    rw [hview]
    exact h.layout.graph.children_push rfl b
  have hparents : ∀ b, s₁.view.parents b = s.view.parents b := fun b => by
    rw [hview]
    exact h.layout.graph.parents_push rfl b
  have hnoparents : s.view.parents n = [] := by
    rw [View.parents, hnone]
    rfl
  obtain ⟨hc, hp⟩ := edges_links (s := s₁) (c := n) d.parents
    (fun q hq => by
      rw [hgraph]
      split
      · rfl
      · exact hps q hq)
    (by rw [hgraph, if_pos rfl]; rfl)
    (by rw [hparents, hnoparents]; exact hnodup)
    (fun q _ hq => by
      rw [hchildren] at hq
      have hsome := (h.layout.graph.edge hq).1
      rw [hnone] at hsome
      cases hsome)
  refine ⟨fun b => ?_, fun b => ?_⟩
  · rw [← hchildren]
    exact hc b
  · refine (hp b).trans ?_
    rw [hparents]
    split
    · rename_i hb
      rw [hb, hnoparents, nil_append]
    · rfl

/-- Opening a join changes no code. Where a loop is opened nothing is current any more. -/
theorem openJoin (h : Laid floor s) (kind : JoinKind) : Laid floor (s.openJoin kind) ∧
    (∀ b₀, View.Grows b₀ s.view (s.openJoin kind).view) ∧
    (s.openJoin kind).view.size = s.view.size ∧ (s.openJoin kind).view.graph = s.view.graph ∧
    (kind = .loop → (s.openJoin kind).view.NoCurrent floor) := by
  have ht : Timelines (s.openJoin kind) := h.timelines.of_arenas rfl rfl rfl
  by_cases hk : kind = .loop
  · have hview : (s.openJoin kind).view = { s.view with
        arrays := s.view.arrays.map fun a => { a with epoch := a.epoch + 1 }
        entries := s.view.entries } := by
      unfold State.openJoin
      rw [if_pos hk]
      rfl
    have hr : View.Revises s.view (s.openJoin kind).view floor floor := by
      rw [hview]
      exact .epochs (fun _ => rfl) (fun a => Int.le_add_of_nonneg_right (by decide)) (fun _ => rfl)
        fun _ _ he => he
    refine ⟨⟨ht, h.layout.revise hr⟩, hr.grows, hr.size, hr.graph, fun _ x t hx he => ?_⟩
    obtain ⟨e, he', hle⟩ := h.layout.bounded (hr.tags hx)
    obtain ⟨a, ha, rfl⟩ := map_eq_some_iff.mp he'
    have hfind := View.find?_map_epoch (fun a => { a with epoch := a.epoch + 1 }) (fun _ => rfl)
      s.view.arrays t.array
    rw [hview] at he
    simp only [View.epoch, hfind, ha, map_some, Option.some.injEq] at he
    lia
  · have hview : (s.openJoin kind).view = s.view := by
      unfold State.openJoin
      rw [if_neg hk]
      rfl
    exact ⟨⟨ht, hview ▸ h.layout⟩, fun b₀ => hview ▸ .refl b₀ _, by rw [hview], by rw [hview],
      fun hl => absurd hl hk⟩

theorem consts (h : Laid floor s) (ns : List Int64) : AddsCode floor s (s.consts ns).2 ∧
    (s.consts ns).1.length = ns.length ∧
    ∀ p ∈ ns.zip (s.consts ns).1, (s.consts ns).2.view.IsConst p.2 p.1 := by
  induction ns generalizing s with
  | nil => exact ⟨.refl h, rfl, fun p hp => (nomatch hp)⟩
  | cons n ns ih =>
    have hn := h.const n
    have hisn := h.isConst_const n
    obtain ⟨hw, hlen, hall⟩ := ih hn.laid
    refine ⟨hn.trans hw, congrArg Nat.succ hlen, fun p hp => ?_⟩
    rcases mem_cons.mp hp with rfl | hp
    · exact hisn.mono (hw.grows 0)
    · exact hall p hp

/-- A new array has constants for its base and its strides. -/
theorem addArray (h : Laid floor s) (name : String) (dims : List Int64) :
    Laid floor (s.addArray name dims).2 ∧
    (∀ b₀, View.Grows b₀ s.view (s.addArray name dims).2.view) ∧
    (s.addArray name dims).2.view.size = s.view.size ∧
    (s.addArray name dims).2.view.graph = s.view.graph ∧
    (s.addArray name dims).2.deferrals = s.deferrals ∧
    (s.addArray name dims).2.contexts.map (·.kind) = s.contexts.map (·.kind) := by
  let s₁ : State := { s with
    nextAddress := s.nextAddress + dims.foldl (· * ·) 1 * s.settings.wordSize }
  have h₁ : Laid floor s₁ := ⟨h.timelines.of_arenas rfl rfl rfl, h.layout⟩
  have hbase := h₁.const s.nextAddress
  have hisbase := h₁.isConst_const s.nextAddress
  obtain ⟨hstrides, hlen, hisstrides⟩ := hbase.laid.consts (stridesOf dims)
  have hall := hbase.trans hstrides
  unfold State.addArray
  dsimp only
  generalize hs₂ : ((s₁.const s.nextAddress).2.consts (stridesOf dims)).2 = s₂ at *
  let a : ArrayInfo :=
    { name := name, dims := dims, strides := stridesOf dims, base := s.nextAddress,
      baseValue := (s₁.const s.nextAddress).1,
      strideValues := ((s₁.const s.nextAddress).2.consts (stridesOf dims)).1 }
  have ha : s₂.view.Addressed a := ⟨hisbase.mono (hstrides.grows 0), hlen, hisstrides⟩
  have hr : View.Revises s₂.view { s₂ with arrays := s₂.arrays ++ [a] }.view floor floor := by
    refine ⟨rfl, rfl, rfl, fun _ => rfl, fun _ => rfl, fun he => .inl he,
      fun hv hphi => .inl ⟨_, hv, hphi⟩, fun {a'} ha' => ?_, fun {n e} he => ⟨e, ?_, Int.le_refl _⟩,
      fun ht => ht, .of_eq rfl rfl⟩
    · rcases mem_append.mp ha' with ha' | ha'
      · exact .inl ⟨a'.epoch, ha'⟩
      · rw [mem_singleton.mp ha']
        exact .inr ha
    · obtain ⟨a₀, ha₀, rfl⟩ := map_eq_some_iff.mp he
      have ha₀ : s₂.arrays.find? (·.name == n) = some a₀ := ha₀
      simp only [View.epoch, State.view, find?_append, ha₀, Option.some_or, map_some]
  refine ⟨⟨hall.laid.timelines.of_arenas rfl rfl rfl, hall.laid.layout.revise hr⟩,
    fun b₀ => (hall.grows b₀).trans (hr.grows b₀) (Int.le_refl _), hr.size.trans hall.size,
    hr.graph.trans hall.graph, congrArg (·.2.2.1) hall.frame, congrArg (·.2.2.2) hall.frame⟩

end Laid

/-! ## Branches -/

theorem Deferrals.mono {s t : State} {b₀ : BlockId} (h : Deferrals s)
    (ht : t.deferrals = s.deferrals) (g : View.Grows b₀ s.view t.view) : Deferrals t := by
  intro d hd
  rw [ht] at hd
  obtain ⟨hb, htarget, i, hi, hside⟩ := h d hd
  have hne : i.op ≠ .empty := by
    intro he
    simp [Instruction.isTarget, Opcode.isBranch, Opcode.isConditional, he] at hside
  obtain ⟨i', hi', hop, -⟩ := g.inst (view_of_inst? hi hne)
  obtain ⟨i₀, hi₀, -, rfl⟩ := inst?_of_view hi'
  have hop : i₀.op = i.op := hop
  refine ⟨?_, htarget, i₀, hi₀, ?_⟩
  · have := g.isSome (b := d.target) (by simpa [State.view] using hb)
    simpa [State.view] using this
  · rw [Instruction.isTarget, hop]
    exact hside

end SingleAssignment.Builder
