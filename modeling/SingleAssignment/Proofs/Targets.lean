import Mathlib.Data.List.Find
import SingleAssignment.Proofs.Placement

/-!
# Where branches go

Once every deferred branch is resolved, each of them points at the first active instruction of the
block it waits for (`Timelines.pointed_resolveBranches`), as long as no branch waits for two.
-/

namespace SingleAssignment.Builder

open Code List

/-- A branch points at the first active instruction of the block that it is to go to. -/
def Pointed (s : State) (d : Deferral) : Prop :=
  ∃ i first, s.inst? d.inst = some i ∧ i.slot d.side = .inst first ∧
    s.firstActive? d.target = some first

/-- No branch waits for two blocks. -/
def Distinct (ds : List Deferral) : Prop :=
  ∀ d ∈ ds, ∀ d' ∈ ds, d.inst = d'.inst → d = d'

theorem withSlot_keeps (i : Instruction) (side : Side) (o : Operand) :
    (i.withSlot side o).slot side = o ∧ (i.withSlot side o).block = i.block ∧
      (i.withSlot side o).active = i.active ∧ (i.withSlot side o).op = i.op := by
  cases side <;> exact ⟨rfl, rfl, rfl, rfl⟩

namespace State

variable {s t : State} {b : BlockId}

theorem firstActive?_congr (htime : t.timelineOf b = s.timelineOf b)
    (hlive : ∀ id, .inst id ∈ s.timelineOf b → t.isLive id = s.isLive id) :
    t.firstActive? b = s.firstActive? b := by
  unfold firstActive?
  rw [htime]
  refine find?_congr fun id hid => ?_
  obtain ⟨slot, hslot, he⟩ := mem_filterMap.mp hid
  cases slot with
  | mark v => cases he
  | inst _ =>
    cases he
    exact hlive id hslot

/-- A block without an active instruction gets an empty one. -/
theorem entryPoint_of_none (h : s.firstActive? b = none) :
    s.entryPoint b = ((s.insertNew b { op := .empty } (s.endOf b)).1,
      (s.insertNew b { op := .empty } (s.endOf b)).2.modifyBlock b fun blk =>
        { blk with placeholder := some (s.insertNew b { op := .empty } (s.endOf b)).1 }) := by
  unfold entryPoint
  rw [h]
  dsimp only
  rw [Timelines.place_empty]

theorem entryPoint_of_some {id : InstId} (h : s.firstActive? b = some id) :
    s.entryPoint b = (id, s) := by
  unfold entryPoint
  rw [h]

theorem isLive_of_inst? {id : InstId} (h : t.inst? id = s.inst? id) :
    t.isLive id = s.isLive id := by
  rw [isLive, isLive, h]

section Empty

variable (hnone : s.firstActive? b = none)

include hnone

theorem fst_entryPoint : (s.entryPoint b).1 = (s.insts.size : Int) + 1 := by
  rw [entryPoint_of_none hnone]
  rfl

theorem inst?_entryPoint_of_none (id : InstId) : (s.entryPoint b).2.inst? id =
    if id = s.insts.size + 1 then some { id := s.insts.size + 1, op := .empty, block := b } else
      s.inst? id := by
  rw [entryPoint_of_none hnone]
  exact (inst?_modifyBlock ..).trans (Timelines.inst?_insertNew s b { op := .empty } _ id)

/-- The empty instruction comes last, and the block knows that it holds a place. -/
theorem block?_entryPoint_of_none (b' : BlockId) : (s.entryPoint b).2.block? b' =
    if b' = b then (s.block? b).map fun blk =>
      { blk with timeline := blk.timeline ++ [.inst (s.insts.size + 1)],
                 placeholder := some (s.insts.size + 1) }
    else s.block? b' := by
  rw [entryPoint_of_none hnone]
  simp only [block?_modifyBlock, insertNew]
  split
  · rw [if_pos trivial]
    show (Option.map _ (s.block? b)).map _ = _
    cases hb : s.block? b with
    | none => rfl
    | some blk => simp [Block.insertSlot, endOf, timelineOf, hb, alloc]
  · rfl

end Empty

/-- An instruction stays as it is where an empty one is put somewhere. -/
theorem inst?_entryPoint (b : BlockId) {id : InstId} {i : Instruction} (hi : s.inst? id = some i) :
    (s.entryPoint b).2.inst? id = some i := by
  cases hnone : s.firstActive? b with
  | some _ => rwa [entryPoint_of_some hnone]
  | none =>
    rw [inst?_entryPoint_of_none hnone, if_neg]
    · exact hi
    · rintro rfl
      rw [inst?_eq_none_of_size_lt (by lia)] at hi
      cases hi

theorem timelineOf_entryPoint (hb : (s.block? b).isSome) (hnone : s.firstActive? b = none)
    (b' : BlockId) :
    (s.entryPoint b).2.timelineOf b' =
      if b' = b then s.timelineOf b ++ [.inst (s.insts.size + 1)] else s.timelineOf b' := by
  obtain ⟨blk, hb⟩ := Option.isSome_iff_exists.mp hb
  rw [timelineOf, block?_entryPoint_of_none hnone]
  split
  · simp [timelineOf, hb]
  · rfl

/-- Timelines hold instructions that there are. -/
def Owned (s : State) : Prop :=
  ∀ b id, .inst id ∈ s.timelineOf b → (s.inst? id).isSome

theorem Owned.isLive_entryPoint (h : s.Owned) (b : BlockId) {b' : BlockId} {id : InstId}
    (hmem : .inst id ∈ s.timelineOf b') : (s.entryPoint b).2.isLive id = s.isLive id := by
  obtain ⟨i, hi⟩ := Option.isSome_iff_exists.mp (h b' id hmem)
  exact isLive_of_inst? ((inst?_entryPoint b hi).trans hi.symm)

/-- What a branch to a block goes to is the first active instruction of the block. -/
theorem Owned.firstActive?_entryPoint (h : s.Owned) (hb : (s.block? b).isSome) :
    (s.entryPoint b).2.firstActive? b = some (s.entryPoint b).1 := by
  cases hnone : s.firstActive? b with
  | some id => rw [entryPoint_of_some hnone, hnone]
  | none =>
    have hsame : ∀ id ∈ (s.timelineOf b).filterMap Slot.inst?, (s.entryPoint b).2.isLive
      id = s.isLive id := by
      intro id hid
      obtain ⟨slot, hslot, he⟩ := mem_filterMap.mp hid
      cases slot with
      | mark v => cases he
      | inst _ =>
        cases he
        exact h.isLive_entryPoint b hslot
    have hlive : (s.entryPoint b).2.isLive (s.insts.size + 1) = true := by
      rw [isLive, inst?_entryPoint_of_none hnone, if_pos rfl]
      rfl
    have htime := timelineOf_entryPoint hb hnone b
    have hid := fst_entryPoint hnone
    unfold State.firstActive? at hnone ⊢
    rw [htime, if_pos rfl, filterMap_append, find?_append, find?_congr hsame, hnone, hid]
    simp [Slot.inst?, hlive]

/-- An empty instruction goes only where there is no active one. -/
theorem Owned.firstActive?_entryPoint_of_ne (h : s.Owned) (hb : (s.block? b).isSome)
    {b' : BlockId} (hne : b' ≠ b) : (s.entryPoint b).2.firstActive? b' = s.firstActive? b' := by
  refine firstActive?_congr ?_ fun id hmem => h.isLive_entryPoint b hmem
  cases hnone : s.firstActive? b with
  | some _ => rw [entryPoint_of_some hnone]
  | none => rw [timelineOf_entryPoint hb hnone, if_neg hne]

theorem Owned.firstActive?_entryPoint_of_some (h : s.Owned) (hb : (s.block? b).isSome)
    {b' : BlockId} {id : InstId} (hid : s.firstActive? b' = some id) :
    (s.entryPoint b).2.firstActive? b' = some id := by
  by_cases he : b' = b
  · subst he
    rw [h.firstActive?_entryPoint hb, entryPoint_of_some hid]
  · rw [h.firstActive?_entryPoint_of_ne hb he, hid]

/-- Where blocks begin is not a question of what branches go to. -/
theorem firstActive?_withSlot (s : State) (id : InstId) (side : Side) (o : Operand) (b : BlockId) :
    (s.modifyInst id (·.withSlot side o)).firstActive? b = s.firstActive? b := by
  refine firstActive?_congr (timelineOf_modifyInst ..) fun id' _ => ?_
  rw [isLive, isLive, inst?_modifyInst]
  split
  · rename_i he
    rw [he, Option.any_map]
    congr 1
    funext i
    exact (withSlot_keeps i side _).2.2.1
  · rfl

theorem firstActive?_resolveBranch (s : State) (d : Deferral) (b : BlockId) :
    (s.resolveBranch d).firstActive? b = (s.entryPoint d.target).2.firstActive? b :=
  firstActive?_withSlot ..

end State

namespace Timelines

variable {s : State} {b : BlockId} {blk : Block}

open State

theorem owned (h : Timelines s) : s.Owned := by
  intro b id hmem
  obtain ⟨i, hi, -⟩ := h.owner hmem
  rw [hi]
  rfl

/-- An instruction stays as it is unless it is the branch that is resolved. -/
theorem inst?_resolveBranch {d : Deferral} {id : InstId} {i : Instruction}
    (hi : s.inst? id = some i) :
    ∃ i', (s.resolveBranch d).inst? id = some i' ∧ (id ≠ d.inst → i' = i) ∧
      (id = d.inst → i'.slot d.side = .inst (s.entryPoint d.target).1) := by
  have hinst : ∀ id i, s.inst? id = some i → (s.entryPoint d.target).2.inst? id = some i :=
    fun _ _ hi => inst?_entryPoint d.target hi
  show ∃ i', ((s.entryPoint d.target).2.modifyInst d.inst _).inst? id = some i' ∧ _
  rw [inst?_modifyInst]
  split
  · rename_i he
    subst he
    rw [hinst _ _ hi]
    have hslot := (withSlot_keeps i d.side (.inst (s.entryPoint d.target).1)).1
    exact ⟨_, rfl, fun hne => absurd rfl hne, fun _ => hslot⟩
  · rename_i hne
    exact ⟨i, hinst _ _ hi, fun _ => rfl, fun he => absurd he hne⟩

theorem pointed_resolveBranch (h : Timelines s) {d : Deferral} (hb : (s.block? d.target).isSome)
    {i : Instruction} (hi : s.inst? d.inst = some i) : Pointed (s.resolveBranch d) d := by
  obtain ⟨i', hi', -, hslot⟩ := inst?_resolveBranch hi
  exact ⟨i', _, hi', hslot rfl, (firstActive?_resolveBranch ..).trans
    (h.owned.firstActive?_entryPoint hb)⟩

/-- A branch that points at its block still does when others are resolved. -/
theorem pointed_mono (h : Timelines s) {d d' : Deferral} (hb : (s.block? d'.target).isSome)
    (hne : d.inst ≠ d'.inst) (hp : Pointed s d) : Pointed (s.resolveBranch d') d := by
  obtain ⟨i, first, hi, hslot, hfirst⟩ := hp
  obtain ⟨i', hi', hkeep, -⟩ := inst?_resolveBranch hi
  exact ⟨i', first, hi', by rw [hkeep hne, hslot],
    (firstActive?_resolveBranch ..).trans (h.owned.firstActive?_entryPoint_of_some hb hfirst)⟩

/-- Every deferred branch points at its block once all are resolved. -/
theorem pointed_resolveBranches (h : Timelines s) (hd : Deferrals s)
    (hdist : Distinct s.deferrals.toList) :
    ∀ d ∈ s.deferrals.toList, Pointed s.resolveBranches d := by
  unfold State.resolveBranches
  unfold Deferrals at hd
  -- The branches that were resolved so far are in `done`.
  suffices hall : ∀ done todo (s : State), Timelines s → Distinct (done ++ todo) →
      (∀ d ∈ todo, (s.block? d.target).isSome ∧ d.target ≠ entryBlock ∧
        ∃ i, s.inst? d.inst = some i ∧ i.isTarget d.side = true) →
      (∀ d ∈ done, Pointed s d) → ∀ d ∈ done ++ todo, Pointed (todo.foldl State.resolveBranch s) d
      from
    hall [] _ s h hdist hd nofun
  intro done todo
  induction todo generalizing done with
  | nil => exact fun s _ _ _ hdone d hd => hdone d (append_nil done ▸ hd)
  | cons d todo ih =>
    intro s h hdist hd hdone
    obtain ⟨hb, -, i, hi, hside⟩ := hd d (mem_cons_self ..)
    obtain ⟨-, ht, hinst, hblock⟩ := h.resolveBranch hb ⟨i, hi, hside⟩
    rw [append_cons] at hdist ⊢
    refine ih (done ++ [d]) (s.resolveBranch d) ht hdist (fun d' hd' => ?_) fun d' hd' => ?_
    · obtain ⟨hb', hne', i', hi', hside'⟩ := hd d' (mem_cons_of_mem _ hd')
      obtain ⟨i'', hi'', hop⟩ := hinst _ _ hi'
      refine ⟨hblock _ hb', hne', i'', hi'', ?_⟩
      rw [← hside']
      simp only [Instruction.isTarget, hop]
    · rcases mem_append.mp hd' with hd' | hd'
      · by_cases he : d'.inst = d.inst
        · rw [hdist d' (by simp [hd']) d (by simp) he]
          exact h.pointed_resolveBranch hb hi
        · exact h.pointed_mono hb he (hdone d' hd')
      · rw [mem_singleton.mp hd']
        exact h.pointed_resolveBranch hb hi

end Timelines

end SingleAssignment.Builder
