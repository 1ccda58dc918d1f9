import SingleAssignment.Proofs.Ledger
import SingleAssignment.Proofs.Targets

/-!
# Resolving branches

Resolving goes through all branches that were ever deferred. `Backpatched` says what it does to a
state: every deferred slot gets the first active instruction of the block of its latest deferral, a
block without one gets one empty instruction at its end, and nothing else changes. Its two steps are
to make sure that a block has an active instruction (`Backpatched.enter`) and to set a slot
(`Backpatched.point`). Whatever calls came before, no branch is left waiting, and resolving again
changes nothing.
-/

namespace SingleAssignment.Builder

open Code List State

/-- The latest deferral of a slot. -/
def latest? (ds : List Deferral) (id : InstId) (side : Side) : Option Deferral :=
  ds.reverse.find? fun d => d.inst = id ∧ d.side = side

theorem latest?_concat (ds : List Deferral) (d : Deferral) (id : InstId) (side : Side) :
    latest? (ds ++ [d]) id side = if d.inst = id ∧ d.side = side then some d else latest?
      ds id side := by
  unfold latest?
  rw [reverse_append, reverse_singleton, singleton_append, find?_cons]
  by_cases h : d.inst = id ∧ d.side = side
  · rw [decide_eq_true h, if_pos h]
  · rw [decide_eq_false h, if_neg h]

theorem mem_of_latest? {ds : List Deferral} {id : InstId} {side : Side} {d : Deferral}
    (h : latest? ds id side = some d) : d ∈ ds :=
  mem_reverse.mp (mem_of_find?_eq_some h)

theorem slot_of_latest? {ds : List Deferral} {id : InstId} {side : Side} {d : Deferral}
    (h : latest? ds id side = some d) : d.inst = id ∧ d.side = side := by
  have hd := find?_some h
  exact of_decide_eq_true hd

/-- A deferred slot has a latest deferral. -/
theorem exists_latest? {ds : List Deferral} {d : Deferral} (h : d ∈ ds) :
    ∃ d', latest? ds d.inst d.side = some d' := by
  refine Option.isSome_iff_exists.mp (find?_isSome.mpr ⟨d, mem_reverse.mpr h, ?_⟩)
  exact decide_eq_true ⟨rfl, rfl⟩

namespace State

/-- The block is one of those that branches go to, and it has no active instruction. -/
def Bare (s : State) (targets : List BlockId) (b : BlockId) : Prop :=
  b ∈ targets ∧ s.firstActive? b = none

/-- What a slot of an instruction holds after deferrals: the first active instruction of the block
of the latest one, or what it held before if there is none. -/
def landing (s : State) (ds : List Deferral) (i : Instruction) (side : Side) : Operand :=
  match latest? ds i.id side with
  | some d => .inst ((s.firstActive? d.target).getD 0)
  | none => i.slot side

/-- How it is reported that a branch goes to the first active instruction of its block. -/
def resolution (s : State) (d : Deferral) : Event :=
  .branchResolved d.inst d.side d.target ((s.firstActive? d.target).getD 0)

end State

theorem WellFormed.owned {s : State} (h : WellFormed s) : s.Owned := by
  intro b id hmem
  obtain ⟨i, hi, -⟩ := Option.map_eq_some_iff.mp ((h.listed.mem_iff b _).mp hmem)
  rw [hi]
  rfl

/-- Some blocks were entered and some deferred slots set, and nothing else was done but report
it. -/
structure Backpatched (targets : List BlockId) (ds : List Deferral) (s t : State) : Prop where
  rest : t = { s with insts := t.insts, blocks := t.blocks, log := t.log }
  bare : ∀ b, s.Bare targets b → ∃ id, s.inst? id = none ∧
    t.inst? id = some { id := id, op := .empty, block := b } ∧
    t.block? b = (s.block? b).map fun blk =>
      { blk with timeline := blk.timeline ++ [.inst id], placeholder := some id }
  block : ∀ b, ¬ s.Bare targets b → t.block? b = s.block? b
  fresh : ∀ id i, s.inst? id = none → t.inst? id = some i →
    s.Bare targets i.block ∧ .inst id ∈ t.timelineOf i.block
  inst : ∀ id i, s.inst? id = some i →
    t.inst? id = some { i with x := t.landing ds i .x, y := t.landing ds i .y }
  log : t.log.toList = s.log.toList ++ ds.map t.resolution

namespace Backpatched

variable {targets : List BlockId} {ds : List Deferral} {s t : State} {b : BlockId}
    {d : Deferral} {id : InstId}

theorem refl (s : State) : Backpatched [] [] s s where
  rest := rfl
  bare _ h := absurd h.1 not_mem_nil
  block _ _ := rfl
  fresh _ _ hs ht := by cases hs.symm.trans ht
  inst _ _ hi := hi
  log := (append_nil _).symm

theorem isLive_eq (h : Backpatched targets ds s t) {i : Instruction} (hi : s.inst? id = some i) :
    t.isLive id = s.isLive id := by
  rw [State.isLive, State.isLive, h.inst id i hi, hi]
  rfl

theorem timelineOf_of_not (h : Backpatched targets ds s t) (hb : ¬ s.Bare targets b) :
    t.timelineOf b = s.timelineOf b := by
  rw [State.timelineOf, State.timelineOf, h.block b hb]

/-- A block with an active instruction, or that is not entered, begins where it did. -/
theorem firstActive?_of_not (h : Backpatched targets ds s t) (hs : s.Owned)
    (hb : ¬ s.Bare targets b) : t.firstActive? b = s.firstActive? b := by
  refine firstActive?_congr (h.timelineOf_of_not hb) fun id hid => ?_
  obtain ⟨i, hi⟩ := Option.isSome_iff_exists.mp (hs b id hid)
  exact h.isLive_eq hi

/-- A slot of a timeline that was not there before is that of an empty instruction in a block that
had no active one. -/
theorem owned (h : Backpatched targets ds s t) (hs : s.Owned) : t.Owned := by
  intro b id hid
  have hold : .inst id ∈ s.timelineOf b → (t.inst? id).isSome := by
    intro hid
    obtain ⟨i, hi⟩ := Option.isSome_iff_exists.mp (hs b id hid)
    rw [h.inst id i hi]
    rfl
  by_cases hb : s.Bare targets b
  · obtain ⟨new, -, hnew, hblock⟩ := h.bare b hb
    cases hblk : s.block? b with
    | none =>
      rw [State.timelineOf, hblock, hblk] at hid
      cases hid
    | some blk =>
      rw [State.timelineOf, hblock, hblk] at hid
      rcases mem_append.mp hid with hid | hid
      · refine hold ?_
        rwa [State.timelineOf, hblk]
      · cases mem_singleton.mp hid
        rw [hnew]
        rfl
  · exact hold (h.timelineOf_of_not hb ▸ hid)

theorem block?_isSome (h : Backpatched targets ds s t) (b : BlockId) :
    (t.block? b).isSome = (s.block? b).isSome := by
  by_cases hb : s.Bare targets b
  · obtain ⟨id, -, -, hblock⟩ := h.bare b hb
    rw [hblock, Option.isSome_map]
  · rw [h.block b hb]

theorem inst?_eq_none (h : Backpatched targets ds s t) (ht : t.inst? id = none) :
    s.inst? id = none := by
  cases hi : s.inst? id with
  | none => rfl
  | some i => cases ht.symm.trans (h.inst id i hi)

/-- A block that had no active instruction begins with the empty one. -/
theorem firstActive?_of_bare (h : Backpatched targets ds s t) (hb : (s.block? b).isSome)
    (hbare : s.Bare targets b) : (t.firstActive? b).isSome := by
  obtain ⟨id, -, hid, hblock⟩ := h.bare b hbare
  obtain ⟨blk, hblk⟩ := Option.isSome_iff_exists.mp hb
  have hmem : id ∈ (t.timelineOf b).filterMap Slot.inst? := by
    rw [State.timelineOf, hblock, hblk]
    exact mem_filterMap.mpr ⟨.inst id, mem_append_right _ (mem_singleton.mpr rfl), rfl⟩
  refine find?_isSome.mpr ⟨id, hmem, ?_⟩
  rw [State.isLive, hid]
  rfl

theorem rest_entryPoint (s : State) (b : BlockId) :
    (s.entryPoint b).2 = { s with insts := (s.entryPoint b).2.insts,
                                  blocks := (s.entryPoint b).2.blocks } := by
  have hblock : ∀ (s : State) f, s.modifyBlock b
    f = { s with blocks := (s.modifyBlock b f).blocks } := by
    intro s f
    unfold State.modifyBlock
    split <;> rfl
  cases hnone : s.firstActive? b with
  | some first => rw [entryPoint_of_some hnone]
  | none =>
    rw [entryPoint_of_none hnone]
    dsimp only [State.insertNew]
    rw [hblock, hblock]
    rfl

/-- A block is entered: afterwards it has an active instruction. -/
theorem enter (h : Backpatched targets ds s t) (hs : s.Owned) (hb : (s.block? b).isSome)
    (hds : ∀ d ∈ ds, (t.firstActive? d.target).isSome) :
    Backpatched (targets ++ [b]) ds s (t.entryPoint b).2 := by
  have ht := h.owned hs
  have htb : (t.block? b).isSome := (h.block?_isSome b).trans hb
  cases hnone : t.firstActive? b with
  | some first =>
    -- The block has an active instruction, be it an old one or the one it got before.
    rw [entryPoint_of_some hnone]
    have hbare : ∀ b', s.Bare (targets ++ [b]) b' ↔ s.Bare targets b' := by
      intro b'
      refine ⟨fun hb' => ?_, fun hb' => ⟨mem_append_left _ hb'.1, hb'.2⟩⟩
      by_contra hnot
      have hsame := (h.firstActive?_of_not hs hnot).trans hb'.2
      rcases mem_append.mp hb'.1 with hmem | hmem
      · exact hnot ⟨hmem, hb'.2⟩
      · rw [mem_singleton.mp hmem, hnone] at hsame
        cases hsame
    exact ⟨h.rest, fun b' hb' => h.bare b' ((hbare b').mp hb'), fun b' hb' => h.block b'
      (hb' ∘ (hbare b').mpr), fun id i hid hi => (h.fresh id i hid hi).imp_left (hbare _).mpr,
      h.inst, h.log⟩
  | none =>
    have hnot : ¬ s.Bare targets b := by
      intro hbare
      have := h.firstActive?_of_bare hb hbare
      rw [hnone] at this
      cases this
    have hbare : s.Bare (targets ++ [b]) b :=
      ⟨mem_append_right _ (mem_singleton.mpr rfl), (h.firstActive?_of_not hs hnot).symm.trans hnone⟩
    have hwas : ∀ {b'}, b' ≠ b → (s.Bare (targets ++ [b]) b' ↔ s.Bare targets b') := by
      intro b' hne
      refine and_congr_left fun _ => ?_
      rw [mem_append, mem_singleton, or_iff_left hne]
    have hnew : t.inst? (t.insts.size + 1) = none := inst?_eq_none_of_size_lt (by lia)
    have hinst := inst?_entryPoint_of_none hnone
    have hblock := block?_entryPoint_of_none hnone
    have htime := timelineOf_entryPoint htb hnone
    have hfirst : ∀ d ∈ ds, (t.entryPoint b).2.firstActive? d.target = t.firstActive? d.target := by
      intro d hd
      obtain ⟨first, hfirst⟩ := Option.isSome_iff_exists.mp (hds d hd)
      rw [ht.firstActive?_entryPoint_of_some htb hfirst, hfirst]
    refine ⟨?_, fun b' hb' => ?_, fun b' hb' => ?_, fun id i hid hi => ?_, fun id i hi => ?_, ?_⟩
    · rw [rest_entryPoint, h.rest]
    · by_cases he : b' = b
      · subst he
        refine ⟨t.insts.size + 1, h.inst?_eq_none hnew, (hinst _).trans (if_pos rfl), ?_⟩
        rw [hblock, if_pos rfl, h.block b' hnot]
      · obtain ⟨id, hnone', hid, hblk⟩ := h.bare b' ((hwas he).mp hb')
        refine ⟨id, hnone', inst?_entryPoint b hid, ?_⟩
        rw [hblock, if_neg he, hblk]
    · have he : b' ≠ b := fun he => hb' (he ▸ hbare)
      rw [hblock, if_neg he]
      exact h.block b' fun hb'' => hb' ((hwas he).mpr hb'')
    · rw [hinst] at hi
      split at hi
      · rename_i he
        cases hi
        refine ⟨hbare, ?_⟩
        rw [htime, if_pos rfl, he]
        exact mem_append_right _ (mem_singleton.mpr rfl)
      · obtain ⟨hb', hmem⟩ := h.fresh id i hid hi
        have he : i.block ≠ b := fun he => hnot (he ▸ hb')
        exact ⟨(hwas he).mpr hb', by rwa [htime, if_neg he]⟩
    · rw [inst?_entryPoint b (h.inst id i hi)]
      have hland : ∀ side, (t.entryPoint b).2.landing ds i side = t.landing ds i side := by
        intro side
        unfold State.landing
        split
        · rename_i d hd
          rw [hfirst d (mem_of_latest? hd)]
        · rfl
      rw [hland, hland]
    · rw [rest_entryPoint]
      refine h.log.trans (congrArg _ (map_congr_left fun d hd => ?_))
      rw [← rest_entryPoint, State.resolution, State.resolution, hfirst d hd]

/-- A slot is set to the first active instruction of the block it waits for. -/
theorem point (h : Backpatched targets ds s t) (hs : ∀ {id i}, s.inst? id = some i → i.id = id)
    (hid : (s.inst? d.inst).isSome) {first : InstId}
    (hfirst : t.firstActive? d.target = some first) :
    Backpatched targets (ds ++ [d]) s
      ((t.modifyInst d.inst (·.withSlot d.side (.inst first))).report
        (.branchResolved d.inst d.side d.target first)) := by
  generalize hu : (t.modifyInst d.inst (·.withSlot d.side (.inst first))).report
    (.branchResolved d.inst d.side d.target first) = u
  have hinst : ∀ id, u.inst? id =
      if id = d.inst then (t.inst? d.inst).map (·.withSlot d.side (.inst first)) else t.inst? id :=
    fun id => hu ▸ inst?_modifyInst t d.inst id _
  have hblock : ∀ b, u.block? b = t.block? b :=
    fun b => hu ▸ block?_modifyInst t d.inst _ b
  have hsame : ∀ b, u.firstActive? b = t.firstActive? b :=
    fun b => hu ▸ firstActive?_withSlot t d.inst d.side _ b
  have hland : ∀ i side, u.landing (ds ++ [d]) i side =
      if d.inst = i.id ∧ d.side = side then .inst first else t.landing ds i side := by
    intro i side
    unfold State.landing
    rw [latest?_concat]
    by_cases he : d.inst = i.id ∧ d.side = side
    · rw [if_pos he, if_pos he]
      dsimp only
      rw [hsame, hfirst]
      rfl
    · rw [if_neg he, if_neg he]
      simp only [hsame]
  have hold : ∀ {id}, s.inst? id = none → id ≠ d.inst := by
    rintro id hnone rfl
    rw [hnone] at hid
    cases hid
  refine ⟨?_, fun b hb => ?_, fun b hb => (hblock b).trans (h.block b hb), fun id i hnone hi => ?_,
    fun id i hi => ?_, ?_⟩
  · rw [← hu, h.rest]
    unfold State.modifyInst
    split <;> rfl
  · obtain ⟨id, hnone, hnew, hblk⟩ := h.bare b hb
    exact ⟨id, hnone, (hinst id).trans ((if_neg (hold hnone)).trans hnew), (hblock b).trans hblk⟩
  · rw [hinst, if_neg (hold hnone)] at hi
    obtain ⟨hb, hmem⟩ := h.fresh id i hnone hi
    refine ⟨hb, ?_⟩
    rwa [State.timelineOf, hblock]
  · rw [hinst, h.inst id i hi, hland, hland, hs hi]
    by_cases he : id = d.inst
    · subst he
      rw [if_pos rfl, h.inst _ i hi]
      cases hside : d.side <;> simp [Instruction.withSlot, hs hi]
    · rw [if_neg he, if_neg fun h => he h.1.symm, if_neg fun h => he h.1.symm]
  · have hlog : u.log = t.log.push (.branchResolved d.inst d.side d.target first) := by
      rw [← hu]
      unfold State.modifyInst
      split <;> rfl
    have hreport : u.resolution = t.resolution := by
      funext d'
      rw [State.resolution, State.resolution, hsame]
    rw [hlog, Array.toList_push, h.log, map_append, hreport, append_assoc, map_singleton,
      State.resolution, hfirst]
    rfl

/-- One deferred branch is resolved. -/
theorem resolveBranch (h : Backpatched (ds.map (·.target)) ds s t) (hs : WellFormed s)
    (hds : ∀ d ∈ ds, (t.firstActive? d.target).isSome) (hb : (s.block? d.target).isSome)
    (hid : (s.inst? d.inst).isSome) :
    Backpatched ((ds ++ [d]).map (·.target)) (ds ++ [d]) s (t.resolveBranch d) ∧
      ∀ d' ∈ ds ++ [d], ((t.resolveBranch d).firstActive? d'.target).isSome := by
  have howned := hs.owned
  have htb : (t.block? d.target).isSome := (h.block?_isSome _).trans hb
  have hfirst := (h.owned howned).firstActive?_entryPoint htb
  refine ⟨?_, fun d' hd' => ?_⟩
  · rw [map_append]
    exact (h.enter howned hb hds).point hs.listed.id_eq hid hfirst
  · rw [firstActive?_resolveBranch]
    rcases mem_append.mp hd' with hd' | hd'
    · obtain ⟨first, hfirst'⟩ := Option.isSome_iff_exists.mp (hds d' hd')
      rw [(h.owned howned).firstActive?_entryPoint_of_some htb hfirst']
      rfl
    · rw [mem_singleton.mp hd', hfirst]
      rfl

end Backpatched

/-- All deferred branches are resolved, one after the other. -/
theorem WellFormed.backpatched {s : State} (h : WellFormed s) :
    Backpatched (s.deferrals.toList.map (·.target)) s.deferrals.toList s s.resolveBranches ∧
      ∀ d ∈ s.deferrals.toList, (s.resolveBranches.firstActive? d.target).isSome := by
  -- The branches that were resolved so far are in `done`.
  suffices hall : ∀ todo done (t : State), (∀ d ∈ todo, d ∈ s.deferrals.toList) →
      Backpatched (done.map (·.target)) done s t → (∀ d ∈ done, (t.firstActive? d.target).isSome) →
      Backpatched ((done ++ todo).map (·.target)) (done ++ todo) s
      (todo.foldl State.resolveBranch t) ∧ ∀ d ∈ done ++ todo,
      ((todo.foldl State.resolveBranch t).firstActive? d.target).isSome from
    hall _ [] s (fun _ hd => hd) (.refl s) fun d hd => absurd hd not_mem_nil
  intro todo
  induction todo with
  | nil =>
    intro done t _ hdone hfirst
    rw [append_nil]
    exact ⟨hdone, hfirst⟩
  | cons d todo ih =>
    intro done t htodo hdone hfirst
    obtain ⟨hb, i, hi, -⟩ := h.known.deferral d (htodo d (mem_cons_self ..))
    obtain ⟨hstep, hfirst'⟩ := hdone.resolveBranch h hfirst hb (by rw [hi]; rfl)
    rw [append_cons, foldl_cons]
    exact ih _ _ (fun d' hd' => htodo d' (mem_cons_of_mem _ hd')) hstep hfirst'

section Resolved

variable {s : State}

/-- A slot that was ever deferred holds the first active instruction of the block of its latest
deferral. -/
theorem WellFormed.exists_slot_eq (h : WellFormed s) {d : Deferral} (hd : d ∈ s.deferrals.toList) :
    ∃ last i first, latest? s.deferrals.toList d.inst d.side = some last ∧
      s.resolveBranches.inst? d.inst = some i ∧ i.slot d.side = .inst first ∧
      s.resolveBranches.firstActive? last.target = some first := by
  obtain ⟨hpatched, hfirst⟩ := h.backpatched
  obtain ⟨-, i, hi, -⟩ := h.known.deferral d hd
  obtain ⟨last, hlast⟩ := exists_latest? hd
  obtain ⟨first, htarget⟩ := Option.isSome_iff_exists.mp (hfirst last (mem_of_latest? hlast))
  have hland : s.resolveBranches.landing s.deferrals.toList i d.side = .inst first := by
    rw [State.landing, h.listed.id_eq hi, hlast]
    dsimp only
    rw [htarget]
    rfl
  refine ⟨last, _, first, hlast, hpatched.inst _ i hi, ?_, htarget⟩
  cases hside : d.side <;> rw [hside] at hland <;> exact hland

theorem WellFormed.pending_resolveBranches (h : WellFormed s) : s.resolveBranches.pending = [] := by
  have hsame : s.resolveBranches.deferrals = s.deferrals := aside_deferrals.resolveBranches s
  refine filterMap_eq_nil_iff.mpr fun d hd => if_neg ?_
  rw [hsame] at hd
  obtain ⟨-, i, first, -, hi, hslot, -⟩ := h.exists_slot_eq hd
  rw [hi, Option.any_some, hslot]
  exact Bool.false_ne_true

theorem State.insts_ext {t : State} (h : ∀ id, t.inst? id = s.inst? id) : t.insts = s.insts := by
  refine Array.ext_getElem? fun k => ?_
  have := h (k + 1)
  unfold State.inst? at this
  rwa [if_pos (by lia), if_pos (by lia), show ((k : Int) + 1 - 1).toNat = k by lia] at this

theorem State.blocks_ext {t : State} (h : ∀ b, t.block? b = s.block? b) : t.blocks = s.blocks := by
  refine Array.ext_getElem? fun k => ?_
  have := h k
  unfold State.block? at this
  rwa [if_pos (by lia), if_pos (by lia), show ((k : Int)).toNat = k by lia] at this

/-- Resolving again only reports again. -/
theorem WellFormed.resolveBranches_twice (h : WellFormed s) : s.resolveBranches.resolveBranches =
    { s.resolveBranches with log := s.resolveBranches.resolveBranches.log } := by
  have ht : WellFormed s.resolveBranches := h.resolveBranches.wellFormed
  have hfirst := h.backpatched.2
  have hslot := fun d hd => h.exists_slot_eq (d := d) hd
  have hagain := ht.backpatched.1
  have hsame : s.resolveBranches.deferrals = s.deferrals := aside_deferrals.resolveBranches s
  rw [hsame] at hagain
  generalize s.resolveBranches = t at *
  generalize t.resolveBranches = u at *
  have hbare : ∀ b, ¬ t.Bare (s.deferrals.toList.map (·.target)) b := by
    rintro b ⟨hmem, hnone⟩
    obtain ⟨d, hd, rfl⟩ := mem_map.mp hmem
    have := hfirst d hd
    rw [hnone] at this
    cases this
  have hlast : ∀ {id i}, t.inst? id = some i → ∀ side, u.landing s.deferrals.toList i
    side = i.slot side := by
    intro id i hi side
    unfold State.landing
    cases hlatest : latest? s.deferrals.toList i.id side with
    | none => rfl
    | some d =>
      obtain ⟨hid, rfl⟩ := slot_of_latest? hlatest
      obtain ⟨last, i', first, hlast, hi', hi'slot, htarget⟩ := hslot d (mem_of_latest? hlatest)
      rw [hid] at hlast
      cases hlatest.symm.trans hlast
      rw [hid, ht.listed.id_eq hi, hi] at hi'
      cases hi'
      dsimp only
      rw [hagain.firstActive?_of_not ht.owned (hbare _), htarget, hi'slot]
      rfl
  have hinst : ∀ id, u.inst? id = t.inst? id := by
    intro id
    cases hi : t.inst? id with
    | some i =>
      rw [hagain.inst id i hi, hlast hi, hlast hi]
      rfl
    | none =>
      cases hu : u.inst? id with
      | none => rfl
      | some i => exact absurd (hagain.fresh id i hi hu).1 (hbare _)
  rw [hagain.rest, insts_ext hinst, blocks_ext fun b => hagain.block b (hbare b)]

end Resolved

/-- Backpatching is complete and idempotent. Whatever calls came before, once branches are resolved
none is left waiting, every slot that was ever deferred holds the first active instruction of the
block of its latest deferral, a block that branches go to has got one empty instruction if it had no
active one, and nothing else has changed. To resolve again only reports again. -/
theorem resolveBranches_complete (settings : Settings) (calls : List Call) :
    let s := State.after settings calls
    let t := State.after settings (calls ++ [.resolveBranches])
    let ds := deferred settings calls
    t.pending = [] ∧
    (∀ d ∈ ds, ∃ last i first, latest? ds d.inst d.side = some last ∧ t.inst? d.inst = some i ∧
      i.slot d.side = .inst first ∧ t.firstActive? last.target = some first) ∧
    Backpatched (ds.map (·.target)) ds s t ∧
    t.resolveBranches = { t with log := t.resolveBranches.log } := by
  have h := wellFormed_after settings calls
  have ht : State.after settings (calls ++ [.resolveBranches]) =
    (State.after settings calls).resolveBranches :=
    after_concat settings calls _
  rw [ht, ← deferrals_after]
  exact ⟨h.pending_resolveBranches, fun d hd => h.exists_slot_eq hd, h.backpatched.1,
    h.resolveBranches_twice⟩

end SingleAssignment.Builder
