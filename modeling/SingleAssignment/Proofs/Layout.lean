import SingleAssignment.Proofs.Placement

/-!
# The layout of code

What every state of a builder promises of its blocks, whatever was built. The dominators of the
blocks form a tree that the edges respect. Each instruction and each version stands in its block
once, phis and heads first. A value that a block knows is held by an instruction of the block.

Where memory is concerned the layout is an order of slots: a slot that carries the current tag of an
array, be it a load or something computed from a load, stands behind every store to that array and
behind the header of every loop. A store therefore starts a new epoch, and so does a loop; what a
repair puts in carries the tags of the place it is put to, and keeps the order.

A view is changed in two ways: a slot is inserted into the code of a block (`Inserts`), or what is
known about the slots changes and their order does not (`Revises`). Each of them keeps the layout.
-/

namespace SingleAssignment.Builder

open Code List
open Option (getD_some isSome_iff_exists map_eq_some_iff map_some)

/-- The memory tags of the loads in a provenance. -/
def tagsOf : Provenance → List MemoryTag
  | .result op _ x y tag => tagsOf x ++ tagsOf y ++ if op = .load then [tag] else []
  | _ => []

/-- The memory tags that an instruction carries. -/
def instTags (i : Instruction) : List MemoryTag :=
  tagsOf i.srcX ++ tagsOf i.srcY ++ if i.op = .load then i.memory.toList else []

namespace View

/-! ## Blocks -/

/-- The dominators of a block, itself first. -/
def doms (V : View) (b : BlockId) : List BlockId :=
  ((V.graph b).map (·.dominators)).getD []

/-- The dominators of a block other than itself, nearest first. -/
def above (V : View) (b : BlockId) : List BlockId :=
  (V.doms b).tail

/-- The parents of a block. -/
def parents (V : View) (b : BlockId) : List BlockId :=
  ((V.graph b).map (·.parents)).getD []

/-- The children of a block. -/
def children (V : View) (b : BlockId) : List BlockId :=
  ((V.graph b).map (·.children)).getD []

/-- How paths meet in a block. -/
def join (V : View) (b : BlockId) : JoinKind :=
  ((V.graph b).map (·.join)).getD .none

/-- Blocks are numbered in the order they are made. Those above a block were made before it, and
above each of them are the rest. An edge goes to a block whose dominators other than itself dominate
where the edge comes from, and leads back only to the header of a loop. -/
structure Graph (V : View) : Prop where
  start : 2 ≤ V.size
  valid : ∀ b, (V.graph b).isSome = true ↔ 0 ≤ b ∧ b < V.size
  id_eq : ∀ {b blk}, V.graph b = some blk → blk.id = b
  doms_eq : ∀ {b}, (V.graph b).isSome → V.doms b = b :: V.above b
  chain : ∀ {b L d T}, V.doms b = L ++ d :: T → V.doms d = d :: T
  lt : ∀ {b d}, d ∈ V.above b → 0 ≤ d ∧ d < b
  root : ∀ {b}, (V.graph b).isSome → b ≠ 0 → 0 ∈ V.above b
  edge : ∀ {b c}, c ∈ V.children b → (V.graph c).isSome ∧ b ∈ V.parents c ∧
    (∀ d ∈ V.above c, d ∈ V.doms b) ∧ (c ≤ b → V.join c = .loop)
  parent : ∀ {p c}, p ∈ V.parents c → (V.graph p).isSome ∧ c ∈ V.children p
  meet : ∀ {j p q}, V.parents j = [p, q] → ∀ d ∈ V.doms p, d ∈ V.doms q → d ∈ V.above j

/-- A block that is made is not the one without code. -/
theorem Graph.size_ne_entry {V : View} (h : V.Graph) : (V.size : BlockId) ≠ entryBlock := by
  have := h.start
  rw [entryBlock]
  lia

/-- Nothing but the blocks matters. -/
theorem Graph.congr {V V' : View} (h : V.Graph) (hg : V'.graph = V.graph) (hs : V'.size = V.size) :
    V'.Graph := by
  obtain ⟨size, graph, _⟩ := V'
  dsimp only at hg hs
  subst hg hs
  exact ⟨h.start, h.valid, h.id_eq, h.doms_eq, h.chain, h.lt, h.root, h.edge, h.parent, h.meet⟩

/-! ## Memory -/

/-- The memory tags that a slot carries. The provenance of a version counts only in the blocks from
`floor` on, which may still be repaired. -/
def tagsAt (V : View) (floor : BlockId) : Slot → List MemoryTag
  | .inst id => ((V.insts id).map instTags).getD []
  | .mark v => ((V.versions v).map fun ver =>
      if floor ≤ ver.block && !ver.isHead then tagsOf ver.src else []).getD []

/-- A slot that holds a store to an array. -/
def IsStore (V : View) (array : String) (slot : Slot) : Prop :=
  ∃ id i, slot = .inst id ∧ V.insts id = some i ∧ i.op = .store ∧
    i.memory.map (·.array) = some array

/-- The number of times the memory of an array may have changed. -/
def epoch (V : View) (array : String) : Option Int :=
  (V.arrays.find? (·.name == array)).map (·.epoch)

/-- A memory tag is not from the future. -/
def Bounded (V : View) (t : MemoryTag) : Prop :=
  ∃ e, V.epoch t.array = some e ∧ t.epoch ≤ e

/-- One slot comes before another, in an earlier block or earlier in the same block. -/
def Before (V : View) (x y : Slot) : Prop :=
  ∃ b b', x ∈ V.code b ∧ y ∈ V.code b' ∧ (b < b' ∨ b = b' ∧ [x, y].Sublist (V.code b))

/-- An entry of a block is held by an instruction of the block. -/
def Known (V : View) (b : BlockId) (e : Entry) : Prop :=
  ∃ i, V.insts e.id = some i ∧ i.block = b ∧ i.op = e.op ∧
    (e.op ≠ .phi → e.op.isNumbered ∧ i.x = e.x ∧ i.y = e.y) ∧
    (e.op = .load → i.memory = some e.tag)

/-- An instruction is a phi of a block. -/
def IsPhi (V : View) (b : BlockId) (id : InstId) : Prop :=
  ∃ i, V.insts id = some i ∧ i.op = .phi ∧ i.block = b

/-- A value is the constant `n`. -/
def IsConst (V : View) (v : Value) (n : Int64) : Prop :=
  v.src = .immediate n v.id ∧ ∃ i, V.insts v.id = some i ∧ i.op = .const ∧ i.x = .literal n

/-- The numbers that the addresses of an array are computed from are constants. -/
def Addressed (V : View) (a : ArrayInfo) : Prop :=
  V.IsConst a.baseValue a.base ∧ a.strideValues.length = a.strides.length ∧
    ∀ p ∈ a.strides.zip a.strideValues, V.IsConst p.2 p.1

/-- Whether a view has something under the name in a slot. -/
def Holds (V : View) : Slot → Prop
  | .inst id => ∃ i, V.insts id = some i
  | .mark v => ∃ ver, V.versions v = some ver

/-- Code is laid out well. `floor` is the first block whose versions may still be replayed. -/
structure Layout (V : View) (floor : BlockId) : Prop where
  graph : V.Graph
  nodup : ∀ b, (V.code b).Nodup
  owner : ∀ {b id}, .inst id ∈ V.code b → ∃ i, V.insts id = some i ∧ i.block = b
  marked : ∀ {b v}, .mark v ∈ V.code b → ∃ ver, V.versions v = some ver ∧ ver.block = b
  listed : ∀ {id i}, V.insts id = some i → i.id = id ∧ .inst id ∈ V.code i.block ∧
    (V.graph i.block).isSome
  listedMark : ∀ {v ver}, V.versions v = some ver → .mark v ∈ V.code ver.block ∧
    (V.graph ver.block).isSome
  lead : ∀ b, (V.code b).Pairwise fun x y => V.isLead y = true → V.isLead x = true
  entries : ∀ {b e}, e ∈ V.entries b → V.Known b e
  memory : ∀ {id i}, V.insts id = some i → i.op = .load → i.memory.isSome
  phis : ∀ {v ver id}, V.versions v = some ver → ver.phi = some id → V.IsPhi ver.block id
  arrays : ∀ {a}, a ∈ V.arrays → V.Addressed a
  bounded : ∀ {x t}, t ∈ V.tagsAt floor x → V.Bounded t
  current : ∀ {b x t}, x ∈ V.code b → t ∈ V.tagsAt floor x → V.epoch t.array = some t.epoch →
    (∀ z, V.IsStore t.array z → V.Before z x) ∧ ∀ h, V.join h = .loop → h ≤ b

end View

/-! ## Lists -/

/-- Where a list is part of another, what is before and behind one of its elements is part of what
is before and behind it in the other. -/
theorem sublist_split {α : Type} {l l' before' after' : List α} {x : α} (hs : l.Sublist l')
    (hn : l'.Nodup) (hl' : l' = before' ++ x :: after') (hx : x ∈ l) :
    ∃ before after, l = before ++ x :: after ∧ before.Sublist before' ∧ after.Sublist after' := by
  subst hl'
  obtain ⟨hx₁, hn'⟩ := nodup_insert_iff.mp hn
  obtain ⟨before, rest, rfl, hb, hr⟩ := sublist_append_iff.mp hs
  have hxb : x ∉ before := fun h => hx₁ (mem_append_left _ (hb.mem h))
  rcases mem_append.mp hx with h | h
  · exact absurd h hxb
  · rcases sublist_cons_iff.mp hr with hr | ⟨after, rfl, ha⟩
    · exact absurd (mem_append_right _ (hr.mem h)) hx₁
    · exact ⟨before, after, rfl, hb, ha⟩

theorem pairwise_insert {α : Type} {R : α → α → Prop} {before after : List α} {x : α}
    (h : (before ++ after).Pairwise R) (hb : ∀ y ∈ before, R y x) (ha : ∀ y ∈ after, R x y) :
    (before ++ x :: after).Pairwise R := by
  rw [pairwise_append] at h ⊢
  refine ⟨h.1, pairwise_cons.mpr ⟨ha, h.2.1⟩, fun y hy z hz => ?_⟩
  rcases mem_cons.mp hz with rfl | hz
  · exact hb y hy
  · exact h.2.2 y hy z hz

theorem sublist_insert {α : Type} (before after : List α) (x : α) :
    (before ++ after).Sublist (before ++ x :: after) :=
  (List.Sublist.refl before).append (sublist_cons_self x after)

/-- What is before an element in a list without repetition. -/
theorem pair_sublist_iff {α : Type} {before after : List α} {x y : α}
    (hn : (before ++ x :: after).Nodup) : [y, x].Sublist (before ++ x :: after) ↔ y ∈ before := by
  constructor
  · intro h
    obtain ⟨before₀, after₀, hl, hsub, -⟩ := sublist_split h hn rfl (by simp)
    cases before₀ with
    | nil =>
      obtain ⟨rfl, hl⟩ := List.cons.inj hl
      exact absurd (nodup_cons.mp (h.nodup hn)).1 (by simp)
    | cons z rest =>
      obtain ⟨rfl, -⟩ := List.cons.inj hl
      exact hsub.mem (mem_cons_self ..)
  · intro h
    exact (singleton_sublist.mpr h).append (singleton_sublist.mpr (mem_cons_self ..))

namespace View

variable {V V' V'' : View} {floor b b₀ : BlockId} {before after : List Slot} {x y : Slot}

/-! ## Growth -/

/-- Nothing of a view is taken away in another: blocks keep their dominators, code keeps its order,
an instruction keeps its operation and its memory, and its operands if it is numbered. A new store
stands in `b₀` behind all that was there, or in a later block. -/
structure Grows (b₀ : BlockId) (V V' : View) : Prop where
  size : V.size ≤ V'.size
  block : ∀ {b blk}, V.graph b = some blk → ∃ blk', V'.graph b = some blk' ∧
    blk'.dominators = blk.dominators ∧ blk'.join = blk.join
  code : ∀ b, (V.code b).Sublist (V'.code b)
  inst : ∀ {id i}, V.insts id = some i → ∃ i', V'.insts id = some i' ∧ i'.op = i.op ∧
    i'.block = i.block ∧ i'.memory = i.memory ∧ (i.op.isNumbered → i'.x = i.x ∧ i'.y = i.y)
  version : ∀ {v ver}, V.versions v = some ver → ∃ ver', V'.versions v = some ver' ∧
    ver'.var = ver.var ∧ ver'.block = ver.block ∧ ver'.isHead = ver.isHead
  epoch : ∀ {a e}, V.epoch a = some e → ∃ e', V'.epoch a = some e' ∧ e ≤ e'
  store : ∀ {a x}, V'.IsStore a x → V.IsStore a x ∨ ∃ b, b₀ ≤ b ∧ x ∈ V'.code b ∧
    (b = b₀ → ∀ y ∈ V.code b, [y, x].Sublist (V'.code b))

namespace Grows

theorem refl (b₀ : BlockId) (V : View) : Grows b₀ V V :=
  ⟨Nat.le_refl _, fun h => ⟨_, h, rfl, rfl⟩, fun _ => .refl _,
    fun h => ⟨_, h, rfl, rfl, rfl, fun _ => ⟨rfl, rfl⟩⟩, fun h => ⟨_, h, rfl, rfl, rfl⟩,
    fun h => ⟨_, h, Int.le_refl _⟩, .inl⟩

theorem trans {b₁ : BlockId} (h : Grows b₀ V V') (h' : Grows b₁ V' V'') (hb : b₀ ≤ b₁) :
    Grows b₀ V V'' := by
  refine ⟨Nat.le_trans h.size h'.size, fun hb => ?_, fun b => (h.code b).trans (h'.code b),
    fun hi => ?_, fun hv => ?_, fun he => ?_, fun hz => ?_⟩
  · obtain ⟨blk', hb', hd, hj⟩ := h.block hb
    obtain ⟨blk'', hb'', hd', hj'⟩ := h'.block hb'
    exact ⟨blk'', hb'', hd'.trans hd, hj'.trans hj⟩
  · obtain ⟨i', hi', hop, hb, hm, hn⟩ := h.inst hi
    obtain ⟨i'', hi'', hop', hb', hm', hn'⟩ := h'.inst hi'
    refine ⟨i'', hi'', hop'.trans hop, hb'.trans hb, hm'.trans hm, fun hnum => ?_⟩
    obtain ⟨hx, hy⟩ := hn hnum
    obtain ⟨hx', hy'⟩ := hn' (hop ▸ hnum)
    exact ⟨hx'.trans hx, hy'.trans hy⟩
  · obtain ⟨ver', hv', ha, hb, hc⟩ := h.version hv
    obtain ⟨ver'', hv'', ha', hb', hc'⟩ := h'.version hv'
    exact ⟨ver'', hv'', ha'.trans ha, hb'.trans hb, hc'.trans hc⟩
  · obtain ⟨e', he', hle⟩ := h.epoch he
    obtain ⟨e'', he'', hle'⟩ := h'.epoch he'
    exact ⟨e'', he'', Int.le_trans hle hle'⟩
  · rcases h'.store hz with hz | ⟨b, hb₁, hx, hlast⟩
    · rcases h.store hz with hz | ⟨b, hb₀, hx, hlast⟩
      · exact .inl hz
      · exact .inr ⟨b, hb₀, (h'.code b).mem hx, fun hb y hy => (hlast hb y hy).trans (h'.code b)⟩
    · refine .inr ⟨b, Int.le_trans hb hb₁, hx, fun hb' y hy => ?_⟩
      exact hlast (Int.le_antisymm (hb' ▸ hb) hb₁) y ((h.code b).mem hy)

theorem isSome (h : Grows b₀ V V') (hb : (V.graph b).isSome) : (V'.graph b).isSome := by
  obtain ⟨blk, hb⟩ := isSome_iff_exists.mp hb
  obtain ⟨blk', hb', -⟩ := h.block hb
  exact isSome_iff_exists.mpr ⟨blk', hb'⟩

theorem doms_eq (h : Grows b₀ V V') (hb : (V.graph b).isSome) : V'.doms b = V.doms b := by
  obtain ⟨blk, hb⟩ := isSome_iff_exists.mp hb
  obtain ⟨blk', hb', hd, -⟩ := h.block hb
  simp [doms, hb, hb', hd]

theorem join_eq (h : Grows b₀ V V') (hb : (V.graph b).isSome) : V'.join b = V.join b := by
  obtain ⟨blk, hb⟩ := isSome_iff_exists.mp hb
  obtain ⟨blk', hb', -, hj⟩ := h.block hb
  simp [join, hb, hb', hj]

theorem earlier (h : Grows b₀ V V') (hxy : V.Before x y) : V'.Before x y := by
  obtain ⟨b, b', hx, hy, hlt⟩ := hxy
  refine ⟨b, b', (h.code b).mem hx, (h.code b').mem hy, ?_⟩
  rcases hlt with hlt | ⟨hb, hs⟩
  · exact .inl hlt
  · exact .inr ⟨hb, hs.trans (h.code b)⟩

theorem bounded (h : Grows b₀ V V') {t : MemoryTag} (ht : V.Bounded t) : V'.Bounded t := by
  obtain ⟨e, he, hle⟩ := ht
  obtain ⟨e', he', hle'⟩ := h.epoch he
  exact ⟨e', he', Int.le_trans hle hle'⟩

end Grows

/-- Provenances that may be replayed stay as they are: those of instructions other than phis, and
those of versions other than heads in the blocks from `floor` on. -/
structure Keeps (floor : BlockId) (V V' : View) : Prop where
  inst : ∀ {id i}, V.insts id = some i → i.op ≠ .phi → ∃ i', V'.insts id = some i' ∧
    i'.srcX = i.srcX ∧ i'.srcY = i.srcY
  version : ∀ {v ver}, V.versions v = some ver → ver.isHead = false → floor ≤ ver.block →
    ∃ ver', V'.versions v = some ver' ∧ ver'.src = ver.src

namespace Keeps

theorem of_eq (hi : V'.insts = V.insts) (hv : V'.versions = V.versions) : Keeps floor V V' :=
  ⟨fun h _ => ⟨_, hi ▸ h, rfl, rfl⟩, fun h _ _ => ⟨_, hv ▸ h, rfl⟩⟩

theorem trans (h : Keeps floor V V') (g : Grows b₀ V V') (h' : Keeps floor V' V'') :
    Keeps floor V V'' := by
  refine ⟨fun hi hop => ?_, fun hv hhead hb => ?_⟩
  · obtain ⟨i₁, hi₁, hx, hy⟩ := h.inst hi hop
    obtain ⟨i', hi', hop', -⟩ := g.inst hi
    cases hi₁.symm.trans hi'
    obtain ⟨i'', hi'', hx', hy'⟩ := h'.inst hi' (hop' ▸ hop)
    exact ⟨i'', hi'', hx'.trans hx, hy'.trans hy⟩
  · obtain ⟨ver₁, hv₁, hs⟩ := h.version hv hhead hb
    obtain ⟨ver', hv', -, hb', hhead'⟩ := g.version hv
    cases hv₁.symm.trans hv'
    obtain ⟨ver'', hv'', hs'⟩ := h'.version hv' (hhead'.trans hhead) (hb' ▸ hb)
    exact ⟨ver'', hv'', hs'.trans hs⟩

/-- A slot that is no phi and no head carries the tags that it did. -/
theorem tagsAt_eq (h : Keeps floor V V') (g : Grows b₀ V V') (hx : V.Holds x)
    (hlead : V.isLead x = false) : V'.tagsAt floor x = V.tagsAt floor x := by
  cases x with
  | inst id =>
    obtain ⟨i, hi⟩ := hx
    have hop : i.op ≠ .phi := by
      intro he
      simp [isLead, hi, he] at hlead
    obtain ⟨i₁, hi₁, hsx, hsy⟩ := h.inst hi hop
    obtain ⟨i', hi', hop', -, hm, -⟩ := g.inst hi
    cases hi₁.symm.trans hi'
    simp only [tagsAt, hi, hi', map_some, getD_some, instTags, hsx, hsy, hop', hm]
  | mark v =>
    obtain ⟨ver, hv⟩ := hx
    have hhead : ver.isHead = false := by
      simpa [isLead, hv] using hlead
    obtain ⟨ver', hv', -, hb, hh⟩ := g.version hv
    simp only [tagsAt, hv, hv', map_some, getD_some, hb, hh]
    by_cases hf : floor ≤ ver.block
    · obtain ⟨ver₁, hv₁, hs⟩ := h.version hv hhead hf
      cases hv₁.symm.trans hv'
      rw [hs]
    · simp [hf]

end Keeps

/-! ## Revisions -/

/-- What an instruction keeps where the order of the code stays as it is. -/
def essence (i : Instruction) : InstId × Opcode × BlockId × Option MemoryTag ×
    Option (Operand × Operand) :=
  (i.id, i.op, i.block, i.memory, if i.op.isNumbered then some (i.x, i.y) else none)

/-- What is known about the slots of a view changes, and their order does not. -/
structure Revises (V V' : View) (floor floor' : BlockId) : Prop where
  size : V'.size = V.size
  graph : V'.graph = V.graph
  code : V'.code = V.code
  inst : ∀ id, (V'.insts id).map essence = (V.insts id).map essence
  version : ∀ v, (V'.versions v).map (fun ver => (ver.var, ver.block, ver.isHead)) =
    (V.versions v).map fun ver => (ver.var, ver.block, ver.isHead)
  entries : ∀ {b e}, e ∈ V'.entries b → e ∈ V.entries b ∨ V'.Known b e
  phis : ∀ {v ver' id}, V'.versions v = some ver' → ver'.phi = some id →
    (∃ ver, V.versions v = some ver ∧ ver.phi = some id) ∨ V'.IsPhi ver'.block id
  arrays : ∀ {a}, a ∈ V'.arrays → (∃ e, { a with epoch := e } ∈ V.arrays) ∨ V'.Addressed a
  epoch : ∀ {a e}, V.epoch a = some e → ∃ e', V'.epoch a = some e' ∧ e ≤ e'
  tags : ∀ {x t}, t ∈ V'.tagsAt floor' x → t ∈ V.tagsAt floor x
  keeps : Keeps floor V V'

namespace Revises

variable {floor' : BlockId}

theorem inst_back (h : Revises V V' floor floor') {id : InstId} {i' : Instruction}
    (hi' : V'.insts id = some i') : ∃ i, V.insts id = some i ∧ essence i' = essence i := by
  have he := h.inst id
  rw [hi'] at he
  obtain ⟨i, hi, hk⟩ := map_eq_some_iff.mp he.symm
  exact ⟨i, hi, hk.symm⟩

theorem version_back (h : Revises V V' floor floor') {v : VersionId} {ver' : Version}
    (hv : V'.versions v = some ver') : ∃ ver, V.versions v = some ver ∧ ver'.var = ver.var ∧
      ver'.block = ver.block ∧ ver'.isHead = ver.isHead := by
  have he := h.version v
  rw [hv] at he
  obtain ⟨ver, hver, hk⟩ := map_eq_some_iff.mp he.symm
  simp only [Prod.mk.injEq] at hk
  exact ⟨ver, hver, hk.1.symm, hk.2.1.symm, hk.2.2.symm⟩

theorem isStore_iff (h : Revises V V' floor floor') {a : String} :
    V'.IsStore a x ↔ V.IsStore a x := by
  have key : ∀ {i i' : Instruction}, essence i' = essence i → (i'.op = .store ∧
      i'.memory.map (·.array) = some a ↔ i.op = .store ∧ i.memory.map (·.array) = some a) := by
    intro i i' hk
    simp only [essence, Prod.mk.injEq] at hk
    rw [hk.2.1, hk.2.2.2.1]
  constructor
  · rintro ⟨id, i', rfl, hi', hst⟩
    obtain ⟨i, hi, hk⟩ := h.inst_back hi'
    exact ⟨id, i, rfl, hi, (key hk).mp hst⟩
  · rintro ⟨id, i, rfl, hi, hst⟩
    have he := h.inst id
    rw [hi] at he
    obtain ⟨i', hi', hk⟩ := map_eq_some_iff.mp he
    exact ⟨id, i', rfl, hi', (key hk).mpr hst⟩

theorem isLead_eq (h : Revises V V' floor floor') (x : Slot) : V'.isLead x = V.isLead x := by
  cases x with
  | inst id =>
    have he := congrArg (Option.map (·.2.1)) (h.inst id)
    simp only [Option.map_map] at he
    have hop : ∀ W : View, W.isLead (.inst id) = ((W.insts id).map (·.op)).any (· == .phi) := by
      intro W
      cases hi : W.insts id <;> simp [isLead, hi]
    rw [hop, hop]
    exact congrArg (Option.any (· == .phi)) he
  | mark v =>
    have he := congrArg (Option.map (·.2.2)) (h.version v)
    simp only [Option.map_map] at he
    have hhead : ∀ W : View, W.isLead (.mark v) = ((W.versions v).map (·.isHead)).any id := by
      intro W
      cases hv : W.versions v <;> simp [isLead, hv]
    rw [hhead, hhead]
    exact congrArg (Option.any id) he

theorem grows (h : Revises V V' floor floor') (b₀ : BlockId) : Grows b₀ V V' := by
  refine ⟨Nat.le_of_eq h.size.symm, fun {b blk} hb => ⟨blk, ?_, rfl, rfl⟩, fun b => ?_,
    fun {id i} hi => ?_, fun {v ver} hv => ?_, h.epoch, fun hz => .inl (h.isStore_iff.mp hz)⟩
  · rw [h.graph, hb]
  · simp only [h.code, List.Sublist.refl]
  · have he := h.inst id
    rw [hi] at he
    obtain ⟨i', hi', hk⟩ := map_eq_some_iff.mp he
    simp only [essence, Prod.mk.injEq] at hk
    obtain ⟨-, hop, hb, hm, hxy⟩ := hk
    refine ⟨i', hi', hop, hb, hm, fun hn => ?_⟩
    rw [hop, if_pos hn, if_pos hn, Option.some.injEq, Prod.mk.injEq] at hxy
    exact hxy
  · have he := h.version v
    rw [hv] at he
    obtain ⟨ver', hver', hk⟩ := map_eq_some_iff.mp he
    simp only [Prod.mk.injEq] at hk
    exact ⟨ver', hver', hk⟩

end Revises

theorem Known.mono {e : Entry} (h : V.Known b e) (g : Grows b₀ V V') : V'.Known b e := by
  obtain ⟨i, hi, hblock, hop, hxy, htag⟩ := h
  obtain ⟨i', hi', hop', hblock', hmem, hnum⟩ := g.inst hi
  refine ⟨i', hi', hblock'.trans hblock, hop'.trans hop, fun hphi => ?_,
    fun hl => hmem.trans (htag hl)⟩
  obtain ⟨hn, hx, hy⟩ := hxy hphi
  obtain ⟨hx', hy'⟩ := hnum (hop ▸ hn)
  exact ⟨hn, hx'.trans hx, hy'.trans hy⟩

theorem IsPhi.mono {id : InstId} (h : V.IsPhi b id) (g : Grows b₀ V V') : V'.IsPhi b id := by
  obtain ⟨i, hi, hop, hblock⟩ := h
  obtain ⟨i', hi', hop', hblock', -⟩ := g.inst hi
  exact ⟨i', hi', hop'.trans hop, hblock'.trans hblock⟩

theorem IsConst.mono {v : Value} {n : Int64} (h : V.IsConst v n) (g : Grows b₀ V V') :
    V'.IsConst v n := by
  obtain ⟨hsrc, i, hi, hop, hx⟩ := h
  obtain ⟨i', hi', hop', -, -, hn⟩ := g.inst hi
  exact ⟨hsrc, i', hi', hop'.trans hop, (hn (by rw [hop]; rfl)).1.trans hx⟩

theorem Addressed.mono {a : ArrayInfo} (h : V.Addressed a) (g : Grows b₀ V V') : V'.Addressed a :=
  ⟨h.1.mono g, h.2.1, fun p hp => (h.2.2 p hp).mono g⟩

theorem Layout.revise {floor' : BlockId} (h : V.Layout floor) (hr : Revises V V' floor floor') :
    V'.Layout floor' := by
  have g := hr.grows 0
  have hjoin : V'.join = V.join := by
    funext b
    unfold join
    rw [hr.graph]
  refine ⟨h.graph.congr hr.graph hr.size, fun b => ?_, fun {b id} hmem => ?_, fun {b v} hmem => ?_,
    fun {id i'} hi' => ?_, fun {v ver'} hv' => ?_, fun b => ?_, fun {b e} he => ?_,
    fun {id i'} hi' hop => ?_, fun {v ver' id} hv' hphi => ?_, fun {a} ha => ?_,
    fun {x t} ht => ?_, fun {b x t} hx ht he => ?_⟩
  · rw [hr.code]
    exact h.nodup b
  · rw [hr.code] at hmem
    obtain ⟨i, hi, hb⟩ := h.owner hmem
    obtain ⟨i', hi', -, hb', -⟩ := g.inst hi
    exact ⟨i', hi', hb'.trans hb⟩
  · rw [hr.code] at hmem
    obtain ⟨ver, hv, hb⟩ := h.marked hmem
    obtain ⟨ver', hv', -, hb', -⟩ := g.version hv
    exact ⟨ver', hv', hb'.trans hb⟩
  · obtain ⟨i, hi, hk⟩ := hr.inst_back hi'
    simp only [essence, Prod.mk.injEq] at hk
    rw [hr.code, hr.graph, hk.1, hk.2.2.1]
    exact h.listed hi
  · obtain ⟨ver, hv, -, hb, -⟩ := hr.version_back hv'
    rw [hr.code, hr.graph, hb]
    exact h.listedMark hv
  · rw [hr.code]
    refine (h.lead b).imp fun {x y} hxy => ?_
    rw [hr.isLead_eq, hr.isLead_eq]
    exact hxy
  · rcases hr.entries he with he | he
    · exact (h.entries he).mono g
    · exact he
  · obtain ⟨i, hi, hk⟩ := hr.inst_back hi'
    simp only [essence, Prod.mk.injEq] at hk
    rw [hk.2.2.2.1]
    exact h.memory hi (hk.2.1 ▸ hop)
  · rcases hr.phis hv' hphi with ⟨ver, hv, hphi⟩ | hnew
    · obtain ⟨ver₀, hv₀, -, hb, -⟩ := hr.version_back hv'
      cases hv.symm.trans hv₀
      rw [hb]
      exact (h.phis hv hphi).mono g
    · exact hnew
  · rcases hr.arrays ha with ⟨e, ha⟩ | ha
    · exact (h.arrays ha).mono g
    · exact ha
  · exact g.bounded (h.bounded (hr.tags ht))
  · obtain ⟨e, he', hle⟩ := h.bounded (hr.tags ht)
    obtain ⟨e'', he'', hle'⟩ := hr.epoch he'
    rw [he, Option.some.injEq] at he''
    have hcur : V.epoch t.array = some t.epoch := by
      rw [he', Int.le_antisymm (he'' ▸ hle') hle]
    rw [hr.code] at hx
    obtain ⟨hst, hloop⟩ := h.current hx (hr.tags ht) hcur
    rw [hjoin]
    exact ⟨fun z hz => g.earlier (hst z (hr.isStore_iff.mp hz)), hloop⟩

/-! ## Insertions -/

/-- A slot is new in the code of a block. What it carries meets the order of memory where it is put,
and a store is put at the end, when nothing carries the current tag of its array. -/
structure Inserts (V V' : View) (floor b : BlockId) (before after : List Slot) (x : Slot) :
    Prop where
  size : V'.size = V.size
  graph : V'.graph = V.graph
  known : V'.entries = V.entries
  arrays : V'.arrays = V.arrays
  valid : (V.graph b).isSome
  old : V.code b = before ++ after
  code : V'.code = Function.update V.code b (before ++ x :: after)
  inst : ∀ id, x ≠ .inst id → V'.insts id = V.insts id
  version : ∀ v, x ≠ .mark v → V'.versions v = V.versions v
  fresh : ¬ V.Holds x
  newInst : ∀ id, x = .inst id → ∃ i, V'.insts id = some i ∧ i.id = id ∧ i.block = b ∧
    (i.op = .load → i.memory.isSome)
  newMark : ∀ v, x = .mark v → ∃ ver, V'.versions v = some ver ∧ ver.block = b ∧ ver.phi = none
  lead : if V'.isLead x then ∀ y ∈ before, V.isLead y = true else ∀ y ∈ after, V.isLead y = false
  bounded : ∀ t ∈ V'.tagsAt floor x, V.Bounded t
  current : ∀ t ∈ V'.tagsAt floor x, V.epoch t.array = some t.epoch →
    (∀ z, V.IsStore t.array z → (∃ d < b, z ∈ V.code d) ∨ z ∈ before) ∧
    ∀ h, V.join h = .loop → h ≤ b
  store : ∀ a, V'.IsStore a x → after = [] ∧
    ∀ y t, t ∈ V'.tagsAt floor y → t.array = a → V.epoch a ≠ some t.epoch

namespace Inserts

theorem code_eq (h : Inserts V V' floor b before after x) (b' : BlockId) :
    V'.code b' = if b' = b then before ++ x :: after else V.code b' := by
  rw [h.code]
  exact Function.update_apply ..

theorem code_self (h : Inserts V V' floor b before after x) : V'.code b = before ++ x :: after := by
  rw [h.code_eq, if_pos rfl]

theorem epoch_eq (h : Inserts V V' floor b before after x) : V'.epoch = V.epoch := by
  funext a
  unfold epoch
  rw [h.arrays]

theorem not_mem (h : Inserts V V' floor b before after x) (hV : V.Layout floor) (b' : BlockId) :
    x ∉ V.code b' := by
  intro hx
  cases x with
  | inst id =>
    obtain ⟨i, hi, -⟩ := hV.owner hx
    exact h.fresh ⟨i, hi⟩
  | mark v =>
    obtain ⟨ver, hv, -⟩ := hV.marked hx
    exact h.fresh ⟨ver, hv⟩

/-- What a slot other than the new one holds is as it was. -/
theorem inst_old (h : Inserts V V' floor b before after x) {id : InstId} {i : Instruction}
    (hi : V.insts id = some i) : V'.insts id = some i := by
  rw [h.inst id, hi]
  rintro rfl
  exact h.fresh ⟨i, hi⟩

theorem version_old (h : Inserts V V' floor b before after x) {v : VersionId} {ver : Version}
    (hv : V.versions v = some ver) : V'.versions v = some ver := by
  rw [h.version v, hv]
  rintro rfl
  exact h.fresh ⟨ver, hv⟩

theorem isStore_old (h : Inserts V V' floor b before after x) {a : String} (hy : y ≠ x) :
    V'.IsStore a y ↔ V.IsStore a y := by
  constructor <;> rintro ⟨id, i, rfl, hi, hst⟩
  · exact ⟨id, i, rfl, h.inst id (Ne.symm hy) ▸ hi, hst⟩
  · exact ⟨id, i, rfl, h.inst_old hi, hst⟩

theorem tagsAt_old (h : Inserts V V' floor b before after x) (hy : y ≠ x) :
    V'.tagsAt floor y = V.tagsAt floor y := by
  cases y with
  | inst id => simp only [tagsAt, h.inst id (Ne.symm hy)]
  | mark v => simp only [tagsAt, h.version v (Ne.symm hy)]

theorem isLead_old (h : Inserts V V' floor b before after x) (hy : y ≠ x) :
    V'.isLead y = V.isLead y := by
  cases y with
  | inst id => simp only [isLead, h.inst id (Ne.symm hy)]
  | mark v => simp only [isLead, h.version v (Ne.symm hy)]

theorem mem_old (h : Inserts V V' floor b before after x) {b' : BlockId} (hy : y ∈ V'.code b')
    (hne : y ≠ x) : y ∈ V.code b' := by
  rw [h.code_eq] at hy
  split at hy
  · rename_i hb
    rw [hb, h.old]
    exact (mem_insert_iff.mp hy).resolve_left hne
  · exact hy

theorem mem_new (h : Inserts V V' floor b before after x) (hV : V.Layout floor) {b' : BlockId}
    (hx : x ∈ V'.code b') : b' = b := by
  rw [h.code_eq] at hx
  split at hx
  · assumption
  · exact absurd hx (h.not_mem hV b')

theorem keeps (h : Inserts V V' floor b before after x) : Keeps floor V V' :=
  ⟨fun hi _ => ⟨_, h.inst_old hi, rfl, rfl⟩, fun hv _ _ => ⟨_, h.version_old hv, rfl⟩⟩

theorem grows (h : Inserts V V' floor b before after x) (hb : ∀ a, V'.IsStore a x → b₀ ≤ b) :
    Grows b₀ V V' := by
  refine ⟨Nat.le_of_eq h.size.symm, fun {b blk} hb => ⟨blk, ?_, rfl, rfl⟩, fun b' => ?_,
    fun hi => ⟨_, h.inst_old hi, rfl, rfl, rfl, fun _ => ⟨rfl, rfl⟩⟩,
    fun hv => ⟨_, h.version_old hv, rfl, rfl, rfl⟩, fun {a e} he => ⟨e, ?_, Int.le_refl _⟩,
    fun {a z} hz => ?_⟩
  · rw [h.graph, hb]
  · rw [h.code_eq]
    split
    · rename_i hb'
      rw [hb', h.old]
      exact sublist_insert _ _ _
    · exact .refl _
  · rw [h.epoch_eq, he]
  · by_cases hzx : z = x
    · subst hzx
      refine .inr ⟨b, hb a hz, ?_, fun _ y hy => ?_⟩
      · rw [h.code_self]
        simp
      · rw [h.old, (h.store a hz).1, append_nil] at hy
        rw [h.code_self]
        exact (singleton_sublist.mpr hy).append
          (singleton_sublist.mpr (mem_cons_self ..))
    · exact .inl ((h.isStore_old hzx).mp hz)

theorem ne_new (hi : Inserts V V' floor b before after x) (h : V.Layout floor)
    {b' : BlockId} {y : Slot} (hy : y ∈ V.code b') : y ≠ x := by
  rintro rfl
  exact hi.not_mem h b' hy

theorem pairwise_lead (hi : Inserts V V' floor b before after x) (h : V.Layout floor)
    (b' : BlockId) : (V'.code b').Pairwise fun y z => V'.isLead z = true → V'.isLead y = true := by
  have hsame : ∀ {b' y}, y ∈ V.code b' → V'.isLead y = V.isLead y :=
    fun hy => hi.isLead_old (hi.ne_new h hy)
  have hpair : (V.code b').Pairwise fun y z => V'.isLead z = true → V'.isLead y = true := by
    refine (h.lead b').imp_of_mem fun {y z} hy hz hyz => ?_
    rw [hsame hy, hsame hz]
    exact hyz
  rw [hi.code_eq]
  split
  · rename_i hb'
    subst hb'
    have hpart := hi.lead
    refine pairwise_insert (hi.old ▸ hpair) (fun y hy hl => ?_) fun y hy hl => ?_
    · rw [if_pos hl] at hpart
      rw [hsame (hi.old ▸ mem_append_left _ hy)]
      exact hpart y hy
    · rw [hsame (hi.old ▸ mem_append_right _ hy)] at hl
      by_contra hop
      rw [if_neg hop] at hpart
      rw [hpart y hy] at hl
      cases hl
  · exact hpair

/-- What carries a current tag stands behind all stores to the array. -/
theorem before_of_current (hi : Inserts V V' floor b before after x) (h : V.Layout floor)
    {b' : BlockId} {y : Slot} {t : MemoryTag} (hy : y ∈ V'.code b') (ht : t ∈ V'.tagsAt floor y)
    (he : V.epoch t.array = some t.epoch) :
    (∀ z, V'.IsStore t.array z → V'.Before z y) ∧ ∀ l, V.join l = .loop → l ≤ b' := by
  have g : Grows b V V' := hi.grows fun _ _ => Int.le_refl _
  have hstore : ∀ z, V'.IsStore t.array z → z ≠ x := by
    rintro z hz rfl
    exact (hi.store _ hz).2 y t ht rfl he
  by_cases hyx : y = x
  · subst hyx
    cases hi.mem_new h hy
    obtain ⟨hst, hloop⟩ := hi.current t ht he
    refine ⟨fun z hz => ?_, hloop⟩
    rcases hst z ((hi.isStore_old (hstore z hz)).mp hz) with ⟨d, hd, hz⟩ | hz
    · exact ⟨d, b, (g.code d).mem hz, hy, .inl hd⟩
    · refine ⟨b, b, (g.code b).mem (hi.old ▸ mem_append_left _ hz), hy, .inr ⟨rfl, ?_⟩⟩
      rw [hi.code_self]
      exact (singleton_sublist.mpr hz).append (singleton_sublist.mpr (mem_cons_self ..))
  · rw [hi.tagsAt_old hyx] at ht
    obtain ⟨hst, hloop⟩ := h.current (hi.mem_old hy hyx) ht he
    exact ⟨fun z hz => g.earlier (hst z ((hi.isStore_old (hstore z hz)).mp hz)), hloop⟩

end Inserts

theorem Layout.insert (h : V.Layout floor) (hi : Inserts V V' floor b before after x) :
    V'.Layout floor := by
  have g : Grows b V V' := hi.grows fun _ _ => Int.le_refl _
  exact {
    graph := h.graph.congr hi.graph hi.size
    nodup := fun b' => by
      rw [hi.code_eq]
      split
      · rw [nodup_insert_iff, ← hi.old]
        exact ⟨hi.not_mem h b, h.nodup b⟩
      · exact h.nodup b'
    owner := fun {b' id} hmem => by
      by_cases hx : x = .inst id
      · obtain ⟨i, hi', -, hb, -⟩ := hi.newInst id hx
        exact ⟨i, hi', hb.trans (hi.mem_new h (hx ▸ hmem)).symm⟩
      · obtain ⟨i, hi', hb⟩ := h.owner (hi.mem_old hmem (Ne.symm hx))
        exact ⟨i, hi.inst_old hi', hb⟩
    marked := fun {b' v} hmem => by
      by_cases hx : x = .mark v
      · obtain ⟨ver, hv, hb, -⟩ := hi.newMark v hx
        exact ⟨ver, hv, hb.trans (hi.mem_new h (hx ▸ hmem)).symm⟩
      · obtain ⟨ver, hv, hb⟩ := h.marked (hi.mem_old hmem (Ne.symm hx))
        exact ⟨ver, hi.version_old hv, hb⟩
    listed := fun {id i} hi' => by
      by_cases hx : x = .inst id
      · obtain ⟨i', hi'', hid, hb, -⟩ := hi.newInst id hx
        cases hi'.symm.trans hi''
        rw [hb, hi.graph, hi.code_self, ← hx]
        exact ⟨hid, by simp, hi.valid⟩
      · rw [hi.inst id hx] at hi'
        obtain ⟨hid, hmem, hb⟩ := h.listed hi'
        exact ⟨hid, (g.code _).mem hmem, g.isSome hb⟩
    listedMark := fun {v ver} hv => by
      by_cases hx : x = .mark v
      · obtain ⟨ver', hv', hb, -⟩ := hi.newMark v hx
        cases hv.symm.trans hv'
        rw [hb, hi.graph, hi.code_self, ← hx]
        exact ⟨by simp, hi.valid⟩
      · rw [hi.version v hx] at hv
        obtain ⟨hmem, hb⟩ := h.listedMark hv
        exact ⟨(g.code _).mem hmem, g.isSome hb⟩
    lead := hi.pairwise_lead h
    entries := fun he => (h.entries (hi.known ▸ he)).mono g
    memory := fun {id i} hi' hop => by
      by_cases hx : x = .inst id
      · obtain ⟨i', hi'', -, -, hm⟩ := hi.newInst id hx
        cases hi'.symm.trans hi''
        exact hm hop
      · exact h.memory (hi.inst id hx ▸ hi') hop
    phis := fun {v ver id} hv hphi => by
      by_cases hx : x = .mark v
      · obtain ⟨ver', hv', -, hnone⟩ := hi.newMark v hx
        cases hv.symm.trans hv'
        rw [hnone] at hphi
        cases hphi
      · exact (h.phis (hi.version v hx ▸ hv) hphi).mono g
    arrays := fun ha => (h.arrays (hi.arrays ▸ ha)).mono g
    bounded := fun {y t} ht => by
      by_cases hyx : y = x
      · subst hyx
        exact g.bounded (hi.bounded t ht)
      · rw [hi.tagsAt_old hyx] at ht
        exact g.bounded (h.bounded ht)
    current := fun {b' y t} hy ht he => by
      obtain ⟨hst, hloop⟩ := hi.before_of_current h hy ht (hi.epoch_eq ▸ he)
      refine ⟨hst, fun l hl => hloop l ?_⟩
      rwa [join, hi.graph] at hl }

/-! ## Places -/

/-- What carries the given tags may be put between two parts of the code of a block: no phi or head
is behind it, and where a tag is current, all stores to its array and the headers of all loops are
before it. -/
structure Admits (V : View) (b : BlockId) (before after : List Slot) (ts : List MemoryTag) :
    Prop where
  lead : ∀ y ∈ after, V.isLead y = false
  bounded : ∀ t ∈ ts, V.Bounded t
  current : ∀ t ∈ ts, V.epoch t.array = some t.epoch →
    (∀ z, V.IsStore t.array z → (∃ d < b, z ∈ V.code d) ∨ z ∈ before) ∧
    ∀ h, V.join h = .loop → h ≤ b

theorem Layout.mem_block (h : V.Layout floor) (hx : x ∈ V.code b) : (V.graph b).isSome := by
  cases x with
  | inst id =>
    obtain ⟨i, hi, rfl⟩ := h.owner hx
    exact (h.listed hi).2.2
  | mark v =>
    obtain ⟨ver, hv, rfl⟩ := h.marked hx
    exact (h.listedMark hv).2

theorem Layout.isStore_mem (h : V.Layout floor) {a : String} (hx : V.IsStore a x) :
    ∃ d, x ∈ V.code d := by
  obtain ⟨id, i, rfl, hi, -⟩ := hx
  exact ⟨i.block, (h.listed hi).2.1⟩

/-- Everything may be put at the end of the newest block. -/
theorem Layout.admits_end (h : V.Layout floor) (hb : b + 1 = V.size) {ts : List MemoryTag}
    (hts : ∀ t ∈ ts, V.Bounded t) : V.Admits b (V.code b) [] ts := by
  refine ⟨fun y hy => (nomatch hy), hts, fun t ht he => ⟨fun z hz => ?_, fun l hl => ?_⟩⟩
  · obtain ⟨d, hd⟩ := h.isStore_mem hz
    have hlt := ((h.graph.valid d).mp (h.mem_block hd)).2
    by_cases hdb : d = b
    · exact .inr (hdb ▸ hd)
    · exact .inl ⟨d, by lia, hd⟩
  · have hsome : (V.graph l).isSome := by
      cases hg : V.graph l with
      | none => simp [join, hg] at hl
      | some blk => rfl
    have hlt := ((h.graph.valid l).mp hsome).2
    lia

/-- What carries no tags may be put at the end of any block. -/
theorem admits_nil (V : View) (b : BlockId) : V.Admits b (V.code b) [] [] :=
  ⟨fun _ hy => (nomatch hy), fun _ ht => (nomatch ht), fun _ ht => (nomatch ht)⟩

/-- Right before a slot and right behind it there may be what carries no other tags. -/
theorem Layout.admits_site (h : V.Layout floor) (hcode : V.code b = before ++ x :: after)
    (hlead : V.isLead x = false) {ts : List MemoryTag} (hts : ∀ t ∈ ts, t ∈ V.tagsAt floor x) :
    V.Admits b before (x :: after) ts ∧ V.Admits b (before ++ [x]) after ts := by
  have hx : x ∈ V.code b := by
    rw [hcode]
    simp
  have hnodup : (before ++ x :: after).Nodup := hcode ▸ h.nodup b
  have hafter : ∀ y ∈ after, V.isLead y = false := by
    intro y hy
    have hp := hcode ▸ h.lead b
    have hxy := (pairwise_cons.mp (pairwise_append.mp hp).2.1).1 y hy
    by_contra hly
    rw [hxy (by simpa using hly)] at hlead
    cases hlead
  have hcur : ∀ t ∈ ts, V.epoch t.array = some t.epoch →
      (∀ z, V.IsStore t.array z → (∃ d < b, z ∈ V.code d) ∨ z ∈ before) ∧
      ∀ h, V.join h = .loop → h ≤ b := by
    intro t ht he
    obtain ⟨hst, hloop⟩ := h.current hx (hts t ht) he
    refine ⟨fun z hz => ?_, hloop⟩
    obtain ⟨d, d', hzd, hxd, hlt⟩ := hst z hz
    have hd' : d' = b := by
      cases x with
      | inst id =>
        obtain ⟨i, hi, rfl⟩ := h.owner hx
        obtain ⟨i', hi', rfl⟩ := h.owner hxd
        cases hi.symm.trans hi'
        rfl
      | mark v =>
        obtain ⟨ver, hv, rfl⟩ := h.marked hx
        obtain ⟨ver', hv', rfl⟩ := h.marked hxd
        cases hv.symm.trans hv'
        rfl
    subst hd'
    rcases hlt with hlt | ⟨rfl, hs⟩
    · exact .inl ⟨d, hlt, hzd⟩
    · rw [hcode] at hs
      exact .inr ((pair_sublist_iff hnodup).mp hs)
  refine ⟨⟨fun y hy => ?_, fun t ht => h.bounded (hts t ht), hcur⟩,
    ⟨hafter, fun t ht => h.bounded (hts t ht), fun t ht he => ⟨fun z hz => ?_, (hcur t ht he).2⟩⟩⟩
  · rcases mem_cons.mp hy with rfl | hy
    · exact hlead
    · exact hafter y hy
  · exact ((hcur t ht he).1 z hz).imp_right (mem_append_left _)

theorem Inserts.addInst {i : Instruction} (hb : (V.graph b).isSome) (hfresh : V.insts i.id = none)
    (hblock : i.block = b) (hcode : V.code b = before ++ after)
    (hmem : i.op = .load → i.memory.isSome)
    (hstore : ∀ a, i.op = .store → i.memory.map (·.array) = some a → after = [] ∧
      (∀ y t, t ∈ V.tagsAt floor y → t.array = a → V.epoch a ≠ some t.epoch) ∧
      ∀ t ∈ instTags i, t.array = a → V.epoch a ≠ some t.epoch)
    (hput : if i.op = .phi then (∀ y ∈ before, V.isLead y = true) ∧ instTags i = []
      else V.Admits b before after (instTags i)) :
    Inserts V (V.addInst b before after i) floor b before after (.inst i.id) := by
  have hinst : ∀ id, (V.addInst b before after i).insts id =
      if id = i.id then some i else V.insts id := fun id => Function.update_apply ..
  have hself := (hinst i.id).trans (if_pos rfl)
  have htags : (V.addInst b before after i).tagsAt floor (.inst i.id) = instTags i := by
    simp [tagsAt, hself]
  have hlead : (V.addInst b before after i).isLead (.inst i.id) = (i.op == .phi) := by
    simp [isLead, hself]
  refine ⟨rfl, rfl, rfl, rfl, hb, hcode, rfl, fun id hid => ?_, fun v _ => rfl, ?_,
    fun id hid => ?_, fun v hv => (by cases hv), ?_, fun t ht => ?_, fun t ht => ?_, fun a ha => ?_⟩
  · rw [hinst, if_neg]
    rintro rfl
    exact hid rfl
  · rintro ⟨i', hi'⟩
    rw [hfresh] at hi'
    cases hi'
  · cases hid
    exact ⟨i, hself, rfl, hblock, hmem⟩
  · rw [hlead]
    by_cases hop : i.op = .phi
    · rw [if_pos hop] at hput
      simpa [hop] using hput.1
    · rw [if_neg hop] at hput
      simpa [hop] using hput.lead
  · rw [htags] at ht
    split at hput
    · rw [hput.2] at ht
      cases ht
    · exact hput.bounded t ht
  · rw [htags] at ht
    split at hput
    · rw [hput.2] at ht
      cases ht
    · exact hput.current t ht
  · obtain ⟨id, i', hid, hi', hop, hm⟩ := ha
    cases hid
    cases hself.symm.trans hi'
    obtain ⟨hafter, hall, hown⟩ := hstore a hop hm
    refine ⟨hafter, fun y t ht => ?_⟩
    by_cases hy : y = .inst i.id
    · rw [hy, htags] at ht
      exact hown t ht
    · refine hall y t ?_
      cases y with
      | mark v => exact ht
      | inst id =>
        simp only [tagsAt, hinst, if_neg fun h => hy (congrArg Slot.inst h)] at ht
        exact ht

theorem Inserts.addMark {v : VersionId} {ver : Version} (hb : (V.graph b).isSome)
    (hfresh : V.versions v = none) (hblock : ver.block = b) (hphi : ver.phi = none)
    (hcode : V.code b = before ++ after) (hput : if ver.isHead then ∀ y ∈ before, V.isLead y = true
      else V.Admits b before after (if floor ≤ b then tagsOf ver.src else [])) :
    Inserts V (V.addMark b before after v ver) floor b before after (.mark v) := by
  have hver : ∀ v', (V.addMark b before after v ver).versions v' =
      if v' = v then some ver else V.versions v' := fun v' => Function.update_apply ..
  have hself := (hver v).trans (if_pos rfl)
  have htags : (V.addMark b before after v ver).tagsAt floor (.mark v) =
      if ver.isHead then [] else if floor ≤ b then tagsOf ver.src else [] := by
    cases hh : ver.isHead <;> simp [tagsAt, hself, hblock, hh]
  have hlead : (V.addMark b before after v ver).isLead (.mark v) = ver.isHead := by
    simp [isLead, hself]
  refine ⟨rfl, rfl, rfl, rfl, hb, hcode, rfl, fun id _ => rfl, fun v' hv => ?_, ?_,
    fun id hid => (by cases hid), fun v' hv => ?_, ?_, fun t ht => ?_, fun t ht => ?_,
    fun a ha => ?_⟩
  · rw [hver, if_neg]
    rintro rfl
    exact hv rfl
  · rintro ⟨ver', hv'⟩
    rw [hfresh] at hv'
    cases hv'
  · cases hv
    exact ⟨ver, hself, hblock, hphi⟩
  · rw [hlead]
    split at hput
    · rename_i hh
      rwa [if_pos hh]
    · rename_i hh
      rw [if_neg hh]
      exact hput.lead
  · rw [htags] at ht
    split at hput
    · simp_all
    · rename_i hh
      rw [if_neg hh] at ht
      exact hput.bounded t ht
  · rw [htags] at ht
    split at hput
    · simp_all
    · rename_i hh
      rw [if_neg hh] at ht
      exact hput.current t ht
  · obtain ⟨id, i', hid, -⟩ := ha
    cases hid

end View

end SingleAssignment.Builder
