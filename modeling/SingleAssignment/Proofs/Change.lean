import Mathlib.Logic.Relation
import SingleAssignment.Proofs.Issued
import SingleAssignment.Proofs.Replay
import SingleAssignment.Proofs.WellFormed

/-!
# Changes of code

Whatever a builder does besides making effects, blocks and edges is a sequence of few kinds of
changes (`Change`): an instruction without an effect is placed, a version is marked, something that
is known about an instruction or a version changes, or books are kept. A change says from which
block on it is made, so that the code in front is left alone; only constants and the version 0 of a
variable that has no value yet go to the blocks at the start.
-/

namespace SingleAssignment

open Code List

namespace Code.Opcode

/-- Whether an operation ends the code of a block. -/
def isTerminator (o : Opcode) : Bool :=
  o.isBranch || o == halt

/-- Whether an operation has an effect: it reads, writes, changes memory, or decides where to go
on. -/
def hasEffect (o : Opcode) : Bool :=
  o == read || o == write || o == writeNL || o == store || o.isTerminator

theorem hasEffect_of_isTerminator {o : Opcode} (h : o.isTerminator = true) :
    o.hasEffect = true := by
  simp [hasEffect, h]

theorem hasEffect_of_isNumbered {o : Opcode} (h : o.isNumbered = true) : o.hasEffect = false := by
  cases o <;> first | rfl | cases h

end Code.Opcode

namespace Builder

open Code

namespace State

/-- The effect that a slot holds. -/
def act? (s : State) : Slot → Option (InstId × Opcode)
  | .inst id =>
    (s.inst? id).bind fun i => if i.op.hasEffect && i.active then some (id, i.op) else none
  | .mark _ => none

/-- The effects of a block in order. -/
def acts (s : State) (b : BlockId) : List (InstId × Opcode) :=
  (s.timelineOf b).filterMap s.act?

/-- Whether a slot holds a branch or the end of the program. -/
def isEnd (s : State) (x : Slot) : Bool :=
  (s.act? x).any (·.2.isTerminator)

/-- No slot of a block holds a branch or the end of the program. -/
def Open (s : State) (b : BlockId) : Prop :=
  ∀ x ∈ s.timelineOf b, s.isEnd x = false

/-- Behind a branch or the end of the program there is nothing in its block, but for versions in the
first block with code. -/
structure Tidy (s : State) : Prop where
  last : ∀ b, (s.timelineOf b).Pairwise fun x y => s.isEnd x = true → b = startBlock ∧
    y.inst? = none
  entry : s.Open entryBlock

/-- A variable has a version above the end of a block that stands for an active instruction. -/
def Held (s : State) (b : BlockId) (name : String) : Prop :=
  ∃ (v : VersionId) (ver : Version), s.versions[v]? = some ver ∧ ver.var = name ∧
    ver.block ∈ s.dominatorsOf b ∧ s.isLive ver.inst = true

/-- The first block with code dominates a block, unless it is the one in front of that. -/
def Rooted (s : State) (b : BlockId) : Prop :=
  b ≠ entryBlock → startBlock ∈ s.dominatorsOf b

/-- An id is that of the constant `n`, which is active. -/
def HoldsConst (s : State) (id : InstId) (n : Int64) : Prop :=
  ∃ i, s.inst? id = some i ∧ i.op = .const ∧ i.x = .literal n ∧ i.block = entryBlock ∧
    i.active = true

/-- The instructions of the blocks from `F` on record versions of these blocks only. -/
def Secluded (s : State) (F : BlockId) : Prop :=
  ∀ id i, s.inst? id = some i → F ≤ i.block → ∀ ref ∈ i.deps, F ≤ ref.block

/-- The instruction that a version stands for records it. -/
def Recorded (s : State) (ver : Version) : Prop :=
  ∀ i, s.inst? ver.inst = some i → ver.ref ∈ i.deps

/-- What a version was computed from records it. -/
def note (s : State) (ver : Version) : State :=
  (ver.history ++ [ver.inst]).foldl (fun s id => s.modifyInst id (·.addDep ver.ref)) s

/-- The constant zero, recording version 0 of a variable. -/
def notedZero (s : State) (name : String) : State :=
  (s.const 0).2.modifyInst (s.const 0).1.id (·.addDep ⟨name, startBlock, 0⟩)

/-- Gives a variable the value zero from the first block with code on; with a cause, a warning tells
of it. -/
def addZero (s : State) (b : BlockId) (name : String) (cause : Option ZeroCause) :
    VersionId × State :=
  let z := (s.const 0).1
  let (v, s) := (s.notedZero name).addVersion
    { var := name, number := 0, inst := z.id, block := startBlock, src := z.src }
    ((s.notedZero name).endOf startBlock)
  (v,
    { s with diagnostics := cause.elim s.diagnostics fun why => s.diagnostics.push ⟨b, name, why⟩ })

end State

namespace State

variable {s : State} {id : InstId}

theorem versions_addZero (b : BlockId) (name : String) (cause : Option ZeroCause) (v : VersionId) :
    (s.addZero b name cause).2.versions[v]? = if v = (s.const 0).2.versions.size then
      some { var := name, number := 0, inst := (s.const 0).1.id, block := startBlock,
             src := (s.const 0).1.src }
      else (s.const 0).2.versions[v]? := by
  rw [← versions_modifyInst (s.const 0).2]
  exact versions_addVersion (s.notedZero name) _ ((s.notedZero name).endOf startBlock) v

theorem inst?_addZero (b : BlockId) (name : String) (cause : Option ZeroCause) (id : InstId) :
    (s.addZero b name cause).2.inst? id = (s.notedZero name).inst? id :=
  inst?_addVersion (s.notedZero name) _ ((s.notedZero name).endOf startBlock) id

theorem addDep_eq (i : Instruction) (ref : VersionRef) :
    i.addDep ref = { i with deps := (i.addDep ref).deps } := by
  unfold Instruction.addDep
  split <;> rfl

theorem mem_deps_addDep {i : Instruction} {ref ref' : VersionRef} :
    ref' ∈ (i.addDep ref).deps ↔ ref' ∈ i.deps ∨ ref' = ref := by
  unfold Instruction.addDep
  split
  · rename_i hmem
    exact ⟨.inl, fun h => h.elim id fun he => he ▸ by simpa using hmem⟩
  · simp

theorem HoldsConst.notedZero {n : Int64} (h : (s.const 0).2.HoldsConst id n) (name : String) :
    (s.notedZero name).HoldsConst id n := by
  obtain ⟨i, hi, hop, hx, hblock, hactive⟩ := h
  rw [HoldsConst, State.notedZero, inst?_modifyInst, hi]
  split
  · rename_i he
    refine ⟨i.addDep _, by rw [← he, hi]; rfl, ?_⟩
    rw [addDep_eq]
    exact ⟨hop, hx, hblock, hactive⟩
  · exact ⟨i, rfl, hop, hx, hblock, hactive⟩

theorem recorded_note (s : State) (ver : Version) : (s.note ver).Recorded ver := by
  intro i hi
  rw [note, foldl_append, foldl_cons, foldl_nil, inst?_modifyInst, if_pos rfl] at hi
  obtain ⟨i, -, rfl⟩ := Option.map_eq_some_iff.mp hi
  exact mem_deps_addDep.mpr (.inr rfl)

theorem depend_eq {v : VersionId} {ver : Version} (h : s.versions[v]? = some ver) :
    s.depend v = s.note ver := by
  rw [depend, h]
  rfl

theorem note_modifyVersion (s : State) (ver : Version) (v : VersionId) (f : Version → Version) :
    (s.modifyVersion v f).note ver = (s.note ver).modifyVersion v f :=
  foldl_hom (modifyVersion · v f) fun s id => by
    unfold modifyInst
    split <;> rfl

theorem note_addVersion (s : State) (ver : Version) (pos : Nat) :
    (s.addVersion ver pos).2.note ver = ((s.note ver).addVersion ver pos).2 :=
  foldl_hom (fun s : State => (s.addVersion ver pos).2) fun s id => by
    simp only [addVersion, modifyInst, modifyBlock]
    split <;> split <;> rfl

/-- What is noted changes no more than what instructions record. -/
theorem note_congr {α : Type} (g : State → α)
    (hg : ∀ s id ref, g (s.modifyInst id (·.addDep ref)) = g s) (s : State) (ver : Version) :
    g (s.note ver) = g s := by
  unfold note
  generalize ver.history ++ [ver.inst] = ids
  induction ids generalizing s with
  | nil => rfl
  | cons id ids ih => exact (ih _).trans (hg s id ver.ref)

theorem dominatorsOf_congr {t : State} (h : t.view.graph = s.view.graph) (b : BlockId) :
    t.dominatorsOf b = s.dominatorsOf b := by
  have h := congrArg (fun o : Option Block => ((o.map (·.dominators)).getD [])) (congrFun h b)
  simp only [view, Option.map_map] at h
  exact h

theorem isSome_block_of_dominatorsOf {b d : BlockId} (h : d ∈ s.dominatorsOf b) :
    (s.block? b).isSome := by
  cases hb : s.block? b with
  | none => simp [dominatorsOf, hb] at h
  | some blk => rfl

theorem Rooted.congr {t : State} {b : BlockId} (h : s.Rooted b) (hg : t.view.graph = s.view.graph) :
    t.Rooted b :=
  fun hne => dominatorsOf_congr hg b ▸ h hne

theorem act?_eq_none (h : ∀ i, s.inst? id = some i → i.op.hasEffect = false) :
    s.act? (.inst id) = none := by
  refine Option.bind_eq_none_iff.mpr fun i hi => ?_
  simp [h i hi]

theorem isEnd_eq_false (h : ∀ i, s.inst? id = some i → i.op.isTerminator = false) :
    s.isEnd (.inst id) = false := by
  cases hi : s.inst? id with
  | none => simp [isEnd, act?, hi]
  | some i =>
    simp only [isEnd, act?, hi, Option.bind_some]
    split
    · exact h i hi
    · rfl

end State

/-- A block without the values that are known in it. -/
def Block.bare (b : Block) : Block :=
  { b with entries := [] }

/-- What an instruction may come to record by changes in the blocks from `F` on: all that it did,
and versions of these blocks, of its own or of later ones. -/
def Records (F : BlockId) (i : Instruction) (deps : List VersionRef) : Prop :=
  i.deps ⊆ deps ∧ ∀ ref ∈ deps, ref ∈ i.deps ∨ F ≤ ref.block ∨ i.block ≤ ref.block

theorem Records.same (F : BlockId) (i : Instruction) : Records F i i.deps :=
  ⟨fun _ href => href, fun _ href => .inl href⟩

/-- What may be asked for: the value zero for a variable that has none at the end of a block, a
version of a variable in a block, that a variable is merged at a join, or that joins are opened and
closed. -/
inductive Want where
  | zero (cause : Option ZeroCause) (b : BlockId) (name : String)
  | mark (b : BlockId) (name : String)
  | join (j : BlockId) (name : String)
  | scope

/-- One change of code that makes no effect, in the blocks from `F` on. What may be asked for, `W`
says. -/
inductive Change (F : BlockId) (W : Want → Prop) : State → State → Prop
  /-- An instruction is placed. -/
  | place {s : State} {b : BlockId} {d : State.Draft} {pos : Nat} (hb : (s.block? b).isSome)
      (hempty : d.op ≠ .empty) (hop : d.op.hasEffect = false)
      (hF : F ≤ b ∨ b = entryBlock ∧ d.op = .const ∧ pos = s.endOf b)
      (hput : s.Tidy → ∀ x ∈ (s.timelineOf b).take pos, s.isEnd x = false) :
      Change F W s (s.place b d pos).2
  /-- A phi is placed. -/
  | phi {s : State} {b : BlockId} {d : State.Draft} (hb : (s.block? b).isSome) (hop : d.op = .phi)
      (hF : F ≤ b) : Change F W s (s.insertNew b d (s.leadingRun b)).2
  /-- A version other than version 0 is marked. -/
  | mark {s : State} {ver : Version} {pos : Nat} (hb : (s.block? ver.block).isSome)
      (hF : F ≤ ver.block) (hnumber : ver.number ≠ 0) (hwant : W (.mark ver.block ver.var))
      (hissued : s.AllIssued → s.IssuedValue ⟨ver.inst, ver.src⟩)
      (hput : s.Tidy → ∀ x ∈ (s.timelineOf ver.block).take pos, s.isEnd x = false)
      (hrec : s.Recorded ver) :
      Change F W s (s.addVersion ver pos).2
  /-- A variable without a value gets version 0. -/
  | zero {s : State} {b : BlockId} {name : String} {cause : Option ZeroCause}
      (hentry : (s.block? entryBlock).isSome) (hstart : (s.block? startBlock).isSome)
      (hwant : W (.zero cause b name)) (hroot : startBlock ∈ s.dominatorsOf b)
      (hnone : ¬ s.Held b name) (hconst : (s.const 0).2.HoldsConst (s.const 0).1.id 0) :
      Change F W s (s.addZero b name cause).2
  /-- Something about an instruction changes, but neither its operation nor its effect, and in front
  of the changed blocks only what it records. -/
  | inst {s : State} {id : InstId} {f : Instruction → Instruction} (hid : ∀ i, (f i).id = i.id)
      (hop : ∀ i, (f i).op = i.op) (hblock : ∀ i, (f i).block = i.block)
      (hblank : ∀ i, s.inst? id = some i → i.op = .empty → content (f i) = content i)
      (hact : ∀ i, s.inst? id = some i → i.op.hasEffect = true → (f i).active = i.active)
      (hF : ∀ i, s.inst? id = some i → F ≤ i.block ∨ f i = { i with deps := (f i).deps })
      (hdeps : ∀ i, s.inst? id = some i → Records F i (f i).deps) :
      Change F W s (s.modifyInst id f)
  /-- Something about a version of the changed blocks changes. One that comes to stand for another
  instruction is recorded there, and it is not in the first block with code. -/
  | version {s : State} {v : VersionId} {f : Version → Version}
      (href : ∀ ver, (f ver).ref = ver.ref) (hissued : s.AllIssued → ∀ ver,
      s.versions[v]? = some ver → s.IssuedValue ⟨(f ver).inst, (f ver).src⟩)
      (hF : ∀ ver, s.versions[v]? = some ver → F ≤ ver.block ∧
      (startBlock < ver.block ∧ s.Recorded (f ver) ∨ (f ver).inst = ver.inst)) :
      Change F W s (s.modifyVersion v f)
  /-- A variable is marked as merged at a join. -/
  | joined {s : State} {j : BlockId} {name : String} (hwant : W (.join j name)) :
      Change F W s (s.addJoinVar j name)
  /-- The open joins learn that a variable was assigned. -/
  | touched {s : State} {name : String} : Change F W s (s.touch name)
  /-- Books are kept. -/
  | books {s t : State} (hinsts : t.insts = s.insts) (hversions : t.versions = s.versions)
      (hblocks : ∀ b, (t.block? b).map Block.bare = (s.block? b).map Block.bare)
      (hsize : t.blocks.size = s.blocks.size) (hwarned : t.diagnostics = s.diagnostics)
      (hcontexts : t.contexts = s.contexts) : Change F W s t

/-- A sequence of changes. -/
abbrev Changes (F : BlockId) (W : Want → Prop) : State → State → Prop :=
  Relation.ReflTransGen (Change F W)

/-! ## Placing -/

/-- A timeline that an instruction is put into at a position, where it may have stood before. -/
def putAt (time : List Slot) (pos : Nat) (id : InstId) : List Slot :=
  (time.take pos).filter (· ≠ .inst id) ++ .inst id :: (time.drop pos).filter (· ≠ .inst id)

/-- What a drafted instruction that is put into a block changes: it is new, or an empty one
before. -/
structure Puts (s : State) (b : BlockId) (d : State.Draft) (pos : Nat) (r : InstId × State) :
    Prop where
  inst : ∃ i : Instruction, i.op = d.op ∧ i.x = d.x ∧ i.block = b ∧ i.active = true ∧
    ∀ id, r.2.inst? id = if id = r.1 then some i else s.inst? id
  old : ∀ i, s.inst? r.1 = some i → i.op = .empty ∧ i.block = b
  deps : ∀ i, r.2.inst? r.1 = some i → i.deps = ((s.inst? r.1).map (·.deps)).getD []
  time : ∀ b', r.2.timelineOf b' =
    if b' = b then putAt (s.timelineOf b) pos r.1 else s.timelineOf b'
  versions : r.2.versions = s.versions

namespace Timelines

variable {s : State} {b : BlockId} {blk : Block} {d : State.Draft} {pos : Nat}

open State

theorem filter_ne_of_not_mem {x : Slot} {l : List Slot} (h : x ∉ l) : l.filter (· ≠ x) = l := by
  refine filter_eq_self.mpr fun y hy => ?_
  have hne : y ≠ x := fun he => h (he ▸ hy)
  simpa using hne

theorem puts_insertNew (hs : Timelines s) (hb : s.block? b = some blk) :
    Puts s b d pos (s.insertNew b d pos) := by
  have hid : (s.insertNew b d pos).1 = (s.insts.size : Int) + 1 := rfl
  refine ⟨⟨_, rfl, rfl, rfl, rfl, inst?_insertNew s b d pos⟩, fun i hi => ?_,
    fun i hi => ?_, fun b' => ?_, versions_insertNew s b d pos⟩
  · rw [hid, inst?_eq_none_of_size_lt (Int.lt_succ _)] at hi
    cases hi
  · rw [inst?_insertNew, if_pos hid] at hi
    cases hi
    rw [hid, inst?_eq_none_of_size_lt (Int.lt_succ _)]
    rfl
  · rw [timelineOf_insertNew d pos hb, putAt, hid,
      filter_ne_of_not_mem fun h => hs.size_not_mem b (mem_of_mem_take h),
      filter_ne_of_not_mem fun h => hs.size_not_mem b (mem_of_mem_drop h)]

theorem puts_overwrite (hs : Timelines s) (hb : s.block? b = some blk) {p : InstId}
    {i : Instruction} (hi : s.inst? p = some i) (hop : i.op = .empty) (hblock : i.block = b) :
    Puts s b d pos (p, s.overwrite b p d pos) := by
  let t := s.modifyInst p fun i =>
    { i with op := d.op, x := d.x, y := d.y, srcX := d.srcX, srcY := d.srcY, active := true }
  have hbt : t.block? b = some blk := (block?_modifyInst s p _ b).trans hb
  let i' : Instruction :=
    { i with op := d.op, x := d.x, y := d.y, srcX := d.srcX, srcY := d.srcY, active := true }
  have hinst : ∀ id, (s.overwrite b p d pos).inst? id = if id = p then some i' else s.inst? id := by
    intro id
    refine (inst?_modifyBlock t b _ id).trans ((inst?_modifyInst s p id _).trans ?_)
    rw [hi]
    rfl
  refine ⟨⟨i', rfl, rfl, hblock, rfl, hinst⟩, fun i₀ hi₀ => ?_, fun i₀ hi₀ => ?_, fun b' => ?_,
    (versions_modifyBlock _ b _).trans (versions_modifyInst s p _)⟩
  · cases hi.symm.trans hi₀
    exact ⟨hop, hblock⟩
  · rw [hinst, if_pos rfl] at hi₀
    cases hi₀
    rw [hi]
    rfl
  · obtain ⟨L₁, L₂, hL, -, hnodup, hL₁, hL₂⟩ :=
      timeline_moved (x := .inst p) (P := fun y => decide (y ≠ .inst p))
        (timelineOf_eq hb ▸ hs.nodup b) (by simp) pos
    have hnotin := (nodup_insert_iff.mp hnodup).1
    rw [filter_ne_of_not_mem fun h => hnotin (mem_append_left _ h)] at hL₁
    rw [filter_ne_of_not_mem fun h => hnotin (mem_append_right _ h)] at hL₂
    dsimp only
    rw [← timelineOf_modifyInst s p _ b']
    refine (timelineOf_modifyBlock hbt b').trans ?_
    rw [putAt, timelineOf_eq hb, ← hL₁, ← hL₂]
    exact congrArg (fun time => if b' = b then time else (s.modifyInst p _).timelineOf b') hL

theorem puts_place (hs : Timelines s) (hb : s.block? b = some blk) (hd : d.op ≠ .empty) :
    Puts s b d pos (s.place b d pos) := by
  unfold State.place
  rw [hb]
  dsimp only [Option.bind_some]
  cases hp : blk.placeholder with
  | none => exact hs.puts_insertNew hb
  | some p =>
    let t := s.modifyBlock b fun blk => { blk with placeholder := none }
    have hbt : t.block? b = some { blk with placeholder := none } := by simp [t, hb]
    have ht : Timelines t := hs.modifyBlock (fun _ => rfl) (fun _ => rfl) fun _ _ h => by cases h
    have htime : t.timelineOf = s.timelineOf := by
      funext b'
      refine (timelineOf_modifyBlock hb b').trans ?_
      split
      · rename_i he
        rw [he, timelineOf_eq hb]
      · rfl
    have hinst : t.inst? = s.inst? := funext (inst?_modifyBlock s b _)
    have hclear : ∀ {r}, Puts t b d pos r → Puts s b d pos r := fun h =>
      ⟨hinst ▸ h.inst, hinst ▸ h.old, hinst ▸ h.deps, htime ▸ h.time, h.versions.trans
        (versions_modifyBlock s b _)⟩
    obtain ⟨i, hi, hblock⟩ := hs.holder hb hp
    simp only [if_neg hd, inst?_modifyBlock, hi, Option.any_some]
    by_cases hop : i.op = .empty
    · simp only [hop, beq_self_eq_true, if_true]
      exact hclear (ht.puts_overwrite hbt ((inst?_modifyBlock s b _ p).trans hi) hop hblock)
    · simp only [beq_iff_eq, hop, if_false]
      exact hclear (ht.puts_insertNew hbt)

end Timelines

end Builder

end SingleAssignment
