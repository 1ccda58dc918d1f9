import Mathlib.Logic.Function.Basic
import SingleAssignment.Builder.Finish

/-!
# Views of a builder

What holds of a builder's state does not depend on all of it. A view leaves out what no value
depends on: the log and the warnings, open joins and deferred branches, the targets of branches,
back references and histories, and the empty instructions that hold a place for a block's first one.
The code of a block is its timeline without these; an instruction that takes the place of an empty
one then looks like any other that is inserted.
-/

namespace SingleAssignment.Builder

open Code List

/-- An instruction without what no value depends on. -/
def face (i : Instruction) : Instruction :=
  { i with
    x := if i.isTarget .x then .none else i.x
    y := if i.isTarget .y then .none else i.y
    deps := [] }

/-- A block without what changes as code is added to it. -/
def Block.shape (b : Block) : Block :=
  { b with timeline := [], table := [], entries := [], joinVars := ∅, placeholder := none }

/-- What values depend on in a builder's state. -/
@[ext] structure View where
  size : Nat
  graph : BlockId → Option Block
  insts : InstId → Option Instruction
  versions : VersionId → Option Version
  code : BlockId → List Slot
  entries : BlockId → List Entry
  joinVars : BlockId → List String
  arrays : List ArrayInfo

namespace View

theorem findSome?_congr {α β : Type} {f g : α → Option β} {l : List α} (h : ∀ a ∈ l, f a = g a) :
    l.findSome? f = l.findSome? g := by
  induction l with
  | nil => rfl
  | cons a l ih =>
    rw [findSome?_cons, findSome?_cons, h a (mem_cons_self ..),
      ih fun a' ha' => h a' (mem_cons_of_mem _ ha')]

/-- A new instruction between two parts of a block's code. -/
def addInst (V : View) (b : BlockId) (before after : List Slot) (i : Instruction) : View :=
  { V with
    insts := Function.update V.insts i.id (some i)
    code := Function.update V.code b (before ++ .inst i.id :: after) }

/-- A new version between two parts of a block's code. -/
def addMark (V : View) (b : BlockId) (before after : List Slot) (v : VersionId) (ver : Version) :
    View :=
  { V with
    versions := Function.update V.versions v (some ver)
    code := Function.update V.code b (before ++ .mark v :: after) }

/-- Another instruction under an id. -/
def setInst (V : View) (id : InstId) (i : Instruction) : View :=
  { V with insts := Function.update V.insts id (some i) }

/-- Another version under an id. -/
def setVersion (V : View) (v : VersionId) (ver : Version) : View :=
  { V with versions := Function.update V.versions v (some ver) }

/-- A value that a block knows. -/
def record (V : View) (b : BlockId) (e : Entry) : View :=
  { V with entries := Function.update V.entries b (e :: V.entries b) }

end View

namespace State

/-- Whether a slot is part of the code: it is no empty instruction. -/
def isCode (s : State) : Slot → Bool
  | .inst id => (s.inst? id).any (·.op != .empty)
  | .mark _ => true

/-- The code of a block: its timeline without empty instructions. -/
def code (s : State) (b : BlockId) : List Slot :=
  (s.timelineOf b).filter s.isCode

/-- The code of a block before a position of its timeline. -/
def codeBefore (s : State) (b : BlockId) (pos : Nat) : List Slot :=
  ((s.timelineOf b).take pos).filter s.isCode

/-- The code of a block from a position of its timeline on. -/
def codeFrom (s : State) (b : BlockId) (pos : Nat) : List Slot :=
  ((s.timelineOf b).drop pos).filter s.isCode

/-- What values depend on. -/
def view (s : State) : View where
  size := s.blocks.size
  graph b := (s.block? b).map Block.shape
  insts id := ((s.inst? id).filter (·.op != .empty)).map face
  versions v := (s.versions[v]?).map fun ver => { ver with history := [] }
  code := s.code
  entries := s.entriesOf
  joinVars b := ((s.block? b).map (·.joinVars.toList)).getD []
  arrays := s.arrays

theorem codeBefore_append_codeFrom (s : State) (b : BlockId) (pos : Nat) :
    s.codeBefore b pos ++ s.codeFrom b pos = s.code b := by
  rw [codeBefore, codeFrom, ← filter_append, take_append_drop]
  rfl

@[simp] theorem codeBefore_endOf (s : State) (b : BlockId) :
    s.codeBefore b (s.endOf b) = s.code b := by
  rw [codeBefore, endOf, take_length]
  rfl

@[simp] theorem codeFrom_endOf (s : State) (b : BlockId) : s.codeFrom b (s.endOf b) = [] := by
  rw [codeFrom, endOf, drop_length]
  rfl

/-! ## Looking up after a change -/

@[simp] theorem inst?_modifyInst (s : State) (id id' : InstId) (f : Instruction → Instruction) :
    (s.modifyInst id f).inst? id' = if id' = id then (s.inst? id).map f else s.inst? id' := by
  unfold modifyInst inst?
  by_cases he : id' = id
  · subst he
    by_cases h : 0 < id' <;> simp [h, Array.getElem?_modify]
  · by_cases h : 0 < id <;> by_cases h' : 0 < id' <;> simp only [h, h', if_true, if_false, he]
    have hne : (id - 1).toNat ≠ (id' - 1).toNat := by lia
    rw [Array.getElem?_modify, if_neg hne]

@[simp] theorem block?_modifyBlock (s : State) (b b' : BlockId) (f : Block → Block) :
    (s.modifyBlock b f).block? b' = if b' = b then (s.block? b).map f else s.block? b' := by
  unfold modifyBlock block?
  by_cases he : b' = b
  · subst he
    by_cases h : 0 ≤ b' <;> simp [h, Array.getElem?_modify]
  · by_cases h : 0 ≤ b <;> by_cases h' : 0 ≤ b' <;> simp only [h, h', if_true, if_false, he]
    have hne : b.toNat ≠ b'.toNat := by lia
    rw [Array.getElem?_modify, if_neg hne]

@[simp] theorem block?_modifyInst (s : State) (id : InstId) (f : Instruction → Instruction)
    (b : BlockId) : (s.modifyInst id f).block? b = s.block? b := by
  unfold modifyInst
  split <;> rfl

@[simp] theorem inst?_modifyBlock (s : State) (b : BlockId) (f : Block → Block) (id : InstId) :
    (s.modifyBlock b f).inst? id = s.inst? id := by
  unfold modifyBlock
  split <;> rfl

@[simp] theorem versions_modifyBlock (s : State) (b : BlockId) (f : Block → Block) :
    (s.modifyBlock b f).versions = s.versions := by
  unfold modifyBlock
  split <;> rfl

@[simp] theorem versions_modifyInst (s : State) (id : InstId) (f : Instruction → Instruction) :
    (s.modifyInst id f).versions = s.versions := by
  unfold modifyInst
  split <;> rfl

@[simp] theorem arrays_modifyBlock (s : State) (b : BlockId) (f : Block → Block) :
    (s.modifyBlock b f).arrays = s.arrays := by
  unfold modifyBlock
  split <;> rfl

@[simp] theorem arrays_modifyInst (s : State) (id : InstId) (f : Instruction → Instruction) :
    (s.modifyInst id f).arrays = s.arrays := by
  unfold modifyInst
  split <;> rfl

@[simp] theorem size_modifyBlock (s : State) (b : BlockId) (f : Block → Block) :
    (s.modifyBlock b f).blocks.size = s.blocks.size := by
  unfold modifyBlock
  split <;> simp

@[simp] theorem size_modifyInst (s : State) (id : InstId) (f : Instruction → Instruction) :
    (s.modifyInst id f).blocks.size = s.blocks.size := by
  unfold modifyInst
  split <;> rfl

@[simp] theorem timelineOf_modifyInst (s : State) (id : InstId) (f : Instruction → Instruction)
    (b : BlockId) : (s.modifyInst id f).timelineOf b = s.timelineOf b := by
  simp [timelineOf]

@[simp] theorem entriesOf_modifyInst (s : State) (id : InstId) (f : Instruction → Instruction)
    (b : BlockId) : (s.modifyInst id f).entriesOf b = s.entriesOf b := by
  simp [entriesOf]

theorem block?_map (s : State) (f : Block → Block) (b : BlockId) :
    { s with blocks := s.blocks.map f }.block? b = (s.block? b).map f := by
  unfold block?
  split <;> simp

theorem block?_forgetLoads (s : State) (b : BlockId) (name : String) (b' : BlockId) :
    (s.forgetLoads b name).block? b' = (s.block? b').map fun blk =>
      if blk.dominators.contains b then
        { blk with entries := blk.entries.filter fun e => e.op != .load || e.tag.array != name }
      else blk :=
  block?_map s _ b'

theorem map_block?_forgetLoads {α : Type} (g : Block → α)
    (hg : ∀ blk es, g { blk with entries := es } = g blk) (s : State) (b : BlockId) (name : String)
    (b' : BlockId) :
    ((s.forgetLoads b name).block? b').map g = (s.block? b').map g := by
  rw [block?_forgetLoads, Option.map_map]
  refine Option.map_congr fun blk _ => ?_
  dsimp only [Function.comp]
  split
  · exact hg _ _
  · rfl

theorem timelineOf_forgetLoads (s : State) (b : BlockId) (name : String) (b' : BlockId) :
    (s.forgetLoads b name).timelineOf b' = s.timelineOf b' := by
  rw [timelineOf, map_block?_forgetLoads _ fun _ _ => rfl]
  rfl

/-- Loads are forgotten at most. -/
theorem entriesOf_forgetLoads (s : State) (b : BlockId) (name : String) (b' : BlockId) (e : Entry) :
    (e ∈ (s.forgetLoads b name).entriesOf b' → e ∈ s.entriesOf b') ∧
      (e ∈ s.entriesOf b' → e.op ≠ .load → e ∈ (s.forgetLoads b name).entriesOf b') := by
  simp only [entriesOf, block?_forgetLoads]
  cases s.block? b' with
  | none => exact ⟨id, fun he _ => he⟩
  | some blk =>
    simp only [Option.map_some, Option.getD_some]
    split
    · exact ⟨fun he => (mem_filter.mp he).1, fun he hop => mem_filter.mpr ⟨he, by simp [hop]⟩⟩
    · exact ⟨id, fun he _ => he⟩

theorem versions_addVersion (s : State) (a : Version) (pos : Nat) (w : VersionId) :
    (s.addVersion a pos).2.versions[w]? = if w = s.versions.size then some a else
    s.versions[w]? := by
  have h : (s.addVersion a pos).2.versions = s.versions.push a :=
    versions_modifyBlock { s with versions := s.versions.push a } a.block _
  rw [h, Array.getElem?_push]

theorem inst?_addVersion (s : State) (a : Version) (pos : Nat) (id : InstId) :
    (s.addVersion a pos).2.inst? id = s.inst? id :=
  inst?_modifyBlock { s with versions := s.versions.push a } a.block _ id

/-! ## Changes that the view does not show, and changes that it shows in one place -/

/-- Two states with the same blocks, in which the same instructions are empty, have the same
code. -/
theorem code_congr {s t : State} {b : BlockId} (ht : t.timelineOf b = s.timelineOf b)
    (hc : ∀ slot ∈ s.timelineOf b, t.isCode slot = s.isCode slot) : t.code b = s.code b := by
  unfold code
  rw [ht]
  exact filter_congr hc

theorem view_modifyInst_of_face {s : State} {id : InstId} {f : Instruction → Instruction}
    (hop : ∀ i, s.inst? id = some i → (f i).op = i.op)
    (hface : ∀ i, s.inst? id = some i → i.op ≠ .empty → face (f i) = face i) :
    (s.modifyInst id f).view = s.view := by
  have hcode : ∀ slot, (s.modifyInst id f).isCode slot = s.isCode slot := by
    intro slot
    cases slot with
    | mark v => rfl
    | inst id' =>
      simp only [isCode, inst?_modifyInst]
      split
      · rename_i h
        subst h
        cases hi : s.inst? id' with
        | none => rfl
        | some i => simp [hop i hi]
      · rfl
  refine View.ext ?_ ?_ ?_ ?_ ?_ ?_ ?_ ?_
  · simp [view]
  · simp [view]
  · funext id'
    simp only [view, inst?_modifyInst]
    split
    · rename_i h
      subst h
      cases hi : s.inst? id' with
      | none => rfl
      | some i =>
        by_cases he : i.op = .empty
        · simp [hop i hi, he, Option.filter]
        · simp [hop i hi, hface i hi he, he, Option.filter]
    · rfl
  · simp [view]
  · funext b
    exact code_congr (timelineOf_modifyInst s id f b) fun slot _ => hcode slot
  · funext b
    simp [view]
  · simp [view]
  · simp [view]

theorem view_modifyInst {s : State} {id : InstId} {f : Instruction → Instruction} {i : Instruction}
    (hi : s.inst? id = some i) (hop : i.op ≠ .empty) (hf : (f i).op ≠ .empty) :
    (s.modifyInst id f).view = s.view.setInst id (face (f i)) := by
  have hcode : ∀ slot, (s.modifyInst id f).isCode slot = s.isCode slot := by
    intro slot
    cases slot with
    | mark v => rfl
    | inst id' =>
      simp only [isCode, inst?_modifyInst]
      split
      · rename_i h
        subst h
        simp [hi, bne_iff_ne.mpr hop, bne_iff_ne.mpr hf]
      · rfl
  refine View.ext ?_ ?_ ?_ ?_ ?_ ?_ ?_ ?_
  · simp [view, View.setInst]
  · simp [view, View.setInst]
  · funext id'
    simp only [view, View.setInst, inst?_modifyInst, Function.update_apply]
    split
    · simp [hi, hf, Option.filter]
    · rfl
  · simp [view, View.setInst]
  · funext b
    exact code_congr (timelineOf_modifyInst s id f b) fun slot _ => hcode slot
  · funext b
    simp [view, View.setInst]
  · simp [view, View.setInst]
  · simp [view, View.setInst]

theorem view_modifyVersion {s : State} {v : VersionId} {f : Version → Version} {ver : Version}
    (hv : s.versions[v]? = some ver) :
    (s.modifyVersion v f).view = s.view.setVersion v { f ver with history := [] } := by
  refine View.ext rfl rfl rfl ?_ rfl rfl rfl rfl
  funext v'
  simp only [view, View.setVersion, modifyVersion, Array.getElem?_modify, Function.update_apply]
  by_cases h : v' = v
  · subst h
    simp [hv]
  · simp [h, Ne.symm h]

theorem map_block?_modifyBlock {s : State} {b : BlockId} {f : Block → Block} {α : Type}
    (g : Block → α) (hg : ∀ blk, g (f blk) = g blk) (b' : BlockId) :
    ((s.modifyBlock b f).block? b').map g = (s.block? b').map g := by
  rw [block?_modifyBlock]
  split
  · rename_i h
    subst h
    cases s.block? b' <;> simp [hg]
  · rfl

/-- A change to a block that the view shows only in the variables that were merged there. -/
theorem view_modifyBlock_joinVars {s : State} {b : BlockId} {f : Block → Block}
    (hshape : ∀ blk, (f blk).shape = blk.shape) (htime : ∀ blk, (f blk).timeline = blk.timeline)
    (hentries : ∀ blk, (f blk).entries = blk.entries) :
    (s.modifyBlock b f).view = { s.view with joinVars := (s.modifyBlock b f).view.joinVars } := by
  have htimeline : ∀ b', (s.modifyBlock b f).timelineOf b' = s.timelineOf b' := by
    intro b'
    rw [timelineOf, map_block?_modifyBlock _ htime]
    rfl
  refine View.ext ?_ ?_ ?_ ?_ ?_ ?_ rfl ?_
  · simp [view]
  · exact funext (map_block?_modifyBlock _ hshape)
  · simp [view]
  · simp [view]
  · funext b'
    refine code_congr (htimeline b') fun slot _ => ?_
    cases slot <;> simp [isCode]
  · funext b'
    simp only [view, entriesOf]
    rw [map_block?_modifyBlock _ hentries]
  · simp [view]

/-- A change to a block that the view does not show. -/
theorem view_modifyBlock {s : State} {b : BlockId} {f : Block → Block}
    (hshape : ∀ blk, (f blk).shape = blk.shape) (htime : ∀ blk, (f blk).timeline = blk.timeline)
    (hentries : ∀ blk, (f blk).entries = blk.entries)
    (hvars : ∀ blk, (f blk).joinVars = blk.joinVars) : (s.modifyBlock b f).view = s.view := by
  rw [view_modifyBlock_joinVars hshape htime hentries]
  refine View.ext rfl rfl rfl rfl rfl rfl (funext fun b' => ?_) rfl
  simp only [view]
  rw [map_block?_modifyBlock (·.joinVars.toList) fun blk => congrArg Names.toList (hvars blk)]

theorem view_record {s : State} {b : BlockId} {e : Entry} {blk : Block}
    (hb : s.block? b = some blk) : (s.record b e).view = s.view.record b e := by
  refine View.ext ?_ ?_ ?_ ?_ ?_ ?_ ?_ ?_
  · simp [view, record, View.record]
  · funext b'
    simp only [view, record, View.record, block?_modifyBlock]
    split
    · rename_i h
      subst h
      simp [hb, Block.record, Block.shape]
    · rfl
  · simp [view, record, View.record]
  · simp [view, record, View.record]
  · funext b'
    refine code_congr ?_ fun slot _ => ?_
    · simp only [timelineOf, record, block?_modifyBlock]
      split
      · rename_i h
        subst h
        simp [hb, Block.record]
      · rfl
    · cases slot <;> simp [isCode, record]
  · funext b'
    simp only [view, entriesOf, record, View.record, block?_modifyBlock, Function.update_apply]
    split
    · rename_i h
      subst h
      simp [hb, Block.record]
    · rfl
  · funext b'
    simp only [view, record, View.record, block?_modifyBlock]
    split
    · rename_i h
      subst h
      simp [hb, Block.record]
    · rfl
  · simp [view, record, View.record]

end State

end SingleAssignment.Builder
