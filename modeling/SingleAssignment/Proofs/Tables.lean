import SingleAssignment.Proofs.View

/-!
# The tables of versions

A block lists its versions twice: each has a mark on the timeline, and a table lists them by
variable. A new version is filed ahead of the first of its variable whose mark is behind its own, so
the table keeps the order of the timeline.
-/

namespace SingleAssignment.Builder

open Code List

/-! ## Filing -/

theorem VersionTable.get_cons (key : String) (old : List VersionId) (t : VersionTable)
    (name : String) : get ((key, old) :: t) name = if name = key then old else t.get name := by
  unfold get
  rw [lookup_cons]
  by_cases h : name = key
  · simp [h]
  · simp [h, beq_eq_false_iff_ne.mpr h]

theorem VersionTable.get_set (t : VersionTable) (name : String) (vs : List VersionId)
    (name' : String) : (t.set name vs).get name' = if name' = name then vs else t.get name' := by
  induction t with
  | nil => rw [set, get_cons]
  | cons entry t ih =>
    obtain ⟨key, old⟩ := entry
    unfold set
    split
    · rename_i hkey
      cases beq_iff_eq.mp hkey
      simp only [get_cons]
      split <;> rfl
    · rename_i hkey
      rw [get_cons, get_cons, ih]
      split
      · rename_i he
        rw [if_neg fun hn => hkey (beq_iff_eq.mpr (he.symm.trans hn))]
      · rfl

theorem exists_findIdx? {l : List Slot} {x : Slot} (hx : x ∈ l) :
    ∃ k < l.length, l.findIdx? (· == x) = some k := by
  cases hk : l.findIdx? (· == x) with
  | none =>
    exact absurd (beq_self_eq_true x) (Bool.eq_false_iff.mp (findIdx?_eq_none_iff.mp hk x hx))
  | some k => exact ⟨k, (findIdx?_eq_some_iff_getElem.mp hk).1, rfl⟩

/-- What stands ahead of a position is found ahead of it. -/
theorem findIdx?_append_left {A : List Slot} (B : List Slot) {x : Slot} (hx : x ∈ A) :
    ∃ k < A.length, (A ++ B).findIdx? (· == x) = some k := by
  obtain ⟨k, hlt, hk⟩ := exists_findIdx? hx
  exact ⟨k, hlt, by rw [findIdx?_append, hk, Option.some_or]⟩

/-- What stands only behind a position is found behind it. -/
theorem findIdx?_append_right {A B : List Slot} {x : Slot} (hA : x ∉ A) (hx : x ∈ B) :
    ∃ k, (A ++ B).findIdx? (· == x) = some (A.length + k) := by
  obtain ⟨k, -, hk⟩ := exists_findIdx? hx
  have hnone : A.findIdx? (· == x) = none :=
    findIdx?_eq_none_iff.mpr fun y hy => beq_eq_false_iff_ne.mpr fun he => hA (he ▸ hy)
  exact ⟨k, by rw [findIdx?_append, hnone, hk, Option.none_or, Option.map_some, Nat.add_comm]⟩

/-! ## Marks -/

/-- The block with a slot at another position of its timeline. -/
def Block.moveSlot (blk : Block) (x : Slot) (pos : Nat) : Block :=
  match blk.timeline.findIdx? (· == x) with
  | some k => (blk.removeSlot k).insertSlot (if k < pos then pos - 1 else pos) x
  | none => blk.insertSlot pos x

/-- Nothing but the timeline changes. -/
theorem Block.moveSlot_of {α : Type} (g : Block → α)
    (hins : ∀ blk k x, g (blk.insertSlot k x) = g blk)
    (hrem : ∀ blk k, g (blk.removeSlot k) = g blk) (blk : Block) (x : Slot) (pos : Nat) :
    g (blk.moveSlot x pos) = g blk := by
  unfold moveSlot
  split
  · rw [hins, hrem]
  · rw [hins]

/-- An instruction that is put into a timeline leaves the versions there in order. -/
theorem Block.marks_insertSlot (blk : Block) (pos : Nat) (id : InstId) :
    (blk.insertSlot pos (.inst id)).timeline.filterMap Slot.mark? = blk.timeline.filterMap
    Slot.mark? := by
  rw [insertSlot, filterMap_append, filterMap_cons_none rfl, ← filterMap_append, take_append_drop]

theorem Block.marks_moveSlot (blk : Block) (id : InstId) (pos : Nat) :
    (blk.moveSlot (.inst id) pos).timeline.filterMap Slot.mark? = blk.timeline.filterMap
    Slot.mark? := by
  unfold moveSlot
  split
  · rename_i k hk
    obtain ⟨hlt, hx, -⟩ := findIdx?_eq_some_iff_getElem.mp hk
    rw [marks_insertSlot]
    show (blk.timeline.eraseIdx k).filterMap Slot.mark? = _
    have hsplit : blk.timeline = blk.timeline.take k ++ .inst id :: blk.timeline.drop (k + 1) := by
      rw [← beq_iff_eq.mp hx, ← drop_eq_getElem_cons hlt, take_append_drop]
    refine Eq.trans ?_ (congrArg (List.filterMap Slot.mark?) hsplit).symm
    rw [eraseIdx_eq_take_drop_succ, filterMap_append, filterMap_append, filterMap_cons_none rfl]
  · exact marks_insertSlot blk pos id

namespace State

variable {s t : State} {b : BlockId} {name : String} {v : VersionId} {slots : List Slot}

/-- The versions of a variable that a part of a timeline marks, in order. -/
def marks (s : State) (slots : List Slot) (name : String) : List VersionId :=
  (slots.filterMap Slot.mark?).filter fun v => (s.versions[v]?).any (·.var == name)

theorem mem_filterMap_mark? : v ∈ slots.filterMap Slot.mark? ↔ .mark v ∈ slots := by
  rw [mem_filterMap]
  constructor
  · rintro ⟨slot, hslot, hv⟩
    cases slot <;> cases hv
    exact hslot
  · exact fun h => ⟨_, h, rfl⟩

theorem mem_marks : v ∈ s.marks slots name ↔
    .mark v ∈ slots ∧ ∃ a, s.versions[v]? = some a ∧ a.var = name := by
  simp only [marks, mem_filter, mem_filterMap_mark?, Option.any_eq_true, beq_iff_eq]

theorem marks_append (s : State) (A B : List Slot) (name : String) :
    s.marks (A ++ B) name = s.marks A name ++ s.marks B name := by
  simp [marks, filterMap_append]

/-- Each table lists what its timeline marks, in the order of the timeline. -/
def Tabled (s : State) : Prop :=
  ∀ b name, s.versionsOf b name = s.marks (s.timelineOf b) name

theorem Tabled.mem_versionsOf (h : s.Tabled) : v ∈ s.versionsOf b name ↔
    .mark v ∈ s.timelineOf b ∧ ∃ a, s.versions[v]? = some a ∧ a.var = name := by
  rw [h, mem_marks]

/-- What a table is about: the table of a block and the versions that its timeline marks. -/
def filing (s : State) (b : BlockId) : VersionTable × List VersionId :=
  (s.tableOf b, (s.timelineOf b).filterMap Slot.mark?)

theorem Tabled.congr (h : s.Tabled) (hfiling : ∀ b, t.filing b = s.filing b)
    (hvar : ∀ v : VersionId, (t.versions[v]?).map (·.var) = (s.versions[v]?).map (·.var)) :
    t.Tabled := by
  intro b name
  obtain ⟨htable, hmarks⟩ := Prod.mk.inj (hfiling b)
  have hany : ∀ v : VersionId, (t.versions[v]?).any (·.var == name) = (s.versions[v]?).any
    (·.var == name) := by
    intro v
    have := congrArg (Option.any (· == name)) (hvar v)
    simpa only [Option.any_map] using this
  rw [versionsOf, htable, marks, hmarks]
  simp only [hany]
  exact h b name

@[simp] theorem filing_modifyInst (s : State) (id : InstId) (f : Instruction → Instruction)
    (b : BlockId) : (s.modifyInst id f).filing b = s.filing b := by
  rw [filing, tableOf, timelineOf, block?_modifyInst]
  rfl

/-- Blocks that are changed without a new version keep their tables. -/
theorem filing_modifyBlock {f : Block → Block} (htable : ∀ blk, (f blk).table = blk.table)
    (hmarks : ∀ blk, (f blk).timeline.filterMap Slot.mark? = blk.timeline.filterMap Slot.mark?)
    (b b' : BlockId) : (s.modifyBlock b f).filing b' = s.filing b' := by
  unfold filing tableOf timelineOf
  rw [block?_modifyBlock]
  split
  · rename_i h
    subst h
    cases s.block? b' <;> simp [htable, hmarks]
  · rfl

end State

theorem takeWhile_dropWhile_append {α : Type} {p : α → Bool} {A B : List α}
    (hA : ∀ x ∈ A, p x = true) (hB : ∀ x ∈ B, p x = false) : (A ++ B).takeWhile p = A ∧
    (A ++ B).dropWhile p = B := by
  rw [takeWhile_append_of_pos hA, dropWhile_append_of_pos hA]
  cases B with
  | nil => simp
  | cons x B => simp [hB x mem_cons_self]

theorem State.filing_moveSlot (s : State) (b b' : BlockId) (id : InstId) (pos : Nat) :
    (s.modifyBlock b (·.moveSlot (.inst id) pos)).filing b' = s.filing b' :=
  filing_modifyBlock (f := (·.moveSlot (.inst id) pos))
    (fun blk => blk.moveSlot_of (·.table) (fun _ _ _ => rfl) (fun _ _ => rfl) _ pos)
    (fun blk => blk.marks_moveSlot id pos) b b'

/-- A version is filed between those that are marked ahead of it and those that are marked
behind. -/
theorem Block.table_addVersion {blk : Block} {pos : Nat} {name : String} {v : VersionId}
    {A B : List VersionId} (htable : blk.table.get name = A ++ B)
    (hA : ∀ w ∈ A, .mark w ∈ blk.timeline.take pos) (hB : ∀ w ∈ B, .mark w ∈ blk.timeline.drop pos)
    (hnodup : blk.timeline.Nodup) (hv : .mark v ∉ blk.timeline) :
    (blk.addVersion pos name v).table = blk.table.set name (A ++ v :: B) := by
  have hahead : ∀ w ∈ A, (!((blk.insertSlot pos (.mark v)).markAt? w).any (pos < ·)) = true := by
    intro w hw
    obtain ⟨k, hlt, hk⟩ := findIdx?_append_left (.mark v :: blk.timeline.drop pos) (hA w hw)
    rw [markAt?, insertSlot, hk, Option.any_some]
    have := length_take_le pos blk.timeline
    simp only [Bool.not_eq_true', decide_eq_false_iff_not]
    omega
  have hbehind : ∀ w ∈ B, (!((blk.insertSlot pos (.mark v)).markAt? w).any (pos < ·)) = false := by
    intro w hw
    have hmem := hB w hw
    have hpos : pos < blk.timeline.length := by
      by_contra hle
      rw [drop_eq_nil_of_le (by omega)] at hmem
      cases hmem
    rw [← take_append_drop pos blk.timeline] at hnodup hv
    have hnot : .mark w ∉ blk.timeline.take pos ++ [.mark v] := by
      intro h
      rcases mem_append.mp h with h | h
      · exact (nodup_append.mp hnodup).2.2 _ h _ hmem rfl
      · rw [mem_singleton.mp h] at hmem
        exact hv (mem_append_right _ hmem)
    obtain ⟨k, hk⟩ := findIdx?_append_right hnot hmem
    rw [append_assoc, singleton_append, length_append, length_take_of_le (Nat.le_of_lt hpos),
      length_singleton] at hk
    rw [markAt?, insertSlot, hk, Option.any_some]
    simp only [Bool.not_eq_false', decide_eq_true_eq]
    omega
  obtain ⟨htake, hdrop⟩ := takeWhile_dropWhile_append hahead hbehind
  rw [addVersion, show (blk.insertSlot pos (.mark v)).table = blk.table from rfl,
    htable, htake, hdrop]

namespace State

variable {s t : State} {a : Version} {blk : Block} {pos : Nat}

theorem marks_push {slots : List Slot} (hpush : t.versions = s.versions.push a)
    (hold : ∀ v, .mark v ∈ slots → v < s.versions.size) (name : String) :
    t.marks slots name = s.marks slots name := by
  refine filter_congr fun v hv => ?_
  rw [hpush, Array.getElem?_push, if_neg (Nat.ne_of_lt (hold v (mem_filterMap_mark?.mp hv)))]

/-- A new mark is seen at its place, and only by its variable. -/
theorem marks_insert {A B : List Slot} {name : String} (hpush : t.versions = s.versions.push a)
    (hA : ∀ v, .mark v ∈ A → v < s.versions.size) (hB : ∀ v, .mark v ∈ B → v < s.versions.size) :
    t.marks (A ++ .mark s.versions.size :: B) name =
      if a.var = name then s.marks A name ++ s.versions.size :: s.marks B name
      else s.marks A name ++ s.marks B name := by
  have hnew : t.marks [.mark s.versions.size] name = if a.var = name then [s.versions.size] else
    [] := by
    simp [marks, Slot.mark?, filter_cons, hpush]
  rw [marks_append, marks_push hpush hA, ← singleton_append, marks_append,
    marks_push hpush hB, hnew]
  split <;> rfl

/-- Tables agree with their timelines also with a new version. -/
theorem Tabled.addVersion (h : s.Tabled) (hb : s.block? a.block = some blk)
    (hnodup : blk.timeline.Nodup) (hold : ∀ {b v}, .mark v ∈ s.timelineOf b → v < s.versions.size) :
    (s.addVersion a pos).2.Tabled := by
  intro b name
  have hnew : (s.addVersion a pos).2.block? b =
      if b = a.block then some (blk.addVersion pos a.var s.versions.size) else s.block? b := by
    refine (block?_modifyBlock { s with versions := s.versions.push a } a.block b _).trans ?_
    rw [show State.block? { s with versions := s.versions.push a } a.block = some blk from hb]
    rfl
  have hpush : (s.addVersion a pos).2.versions = s.versions.push a := by
    rw [State.addVersion, versions_modifyBlock]
  have htime : s.timelineOf a.block = blk.timeline := by simp [timelineOf, hb]
  unfold versionsOf tableOf timelineOf
  rw [hnew]
  split
  · rename_i he
    subst he
    have hold' : ∀ v, .mark v ∈ blk.timeline → v < s.versions.size := fun v hv => hold (htime ▸ hv)
    have htable : ∀ n, blk.table.get n = s.marks (blk.timeline.take pos) n ++
      s.marks (blk.timeline.drop pos) n := by
      intro n
      rw [← marks_append, take_append_drop, ← htime, ← h, versionsOf, tableOf, hb]
      rfl
    simp only [Option.map_some, Option.getD_some]
    rw [Block.table_addVersion (htable a.var) (fun w hw => (mem_marks.mp hw).1)
      (fun w hw => (mem_marks.mp hw).1) hnodup fun hm => Nat.lt_irrefl _ (hold' _ hm),
      VersionTable.get_set, htable name, show (blk.addVersion pos a.var s.versions.size).timeline =
        blk.timeline.take pos ++ .mark s.versions.size :: blk.timeline.drop pos from rfl,
      marks_insert hpush (fun v hv => hold' v (mem_of_mem_take hv)) fun v hv => hold' v
      (mem_of_mem_drop hv)]
    split
    · rename_i hname
      rw [hname, if_pos rfl]
    · rename_i hname
      rw [if_neg fun he => hname he.symm]
  · exact (h b name).trans (marks_push hpush (fun v hv => hold hv) name).symm

/-! ## Visibility -/

/-- At the end of a block the last version of the nearest dominator is visible that has one. -/
theorem visibleWith_endOf {b : BlockId} {ds : List BlockId} (hdoms : s.dominatorsOf b = b :: ds)
    (alive : Version → Bool) (name : String) : s.visibleWith alive b name (s.endOf b) =
      (b :: ds).findSome? fun d => s.lastOf alive (s.versionsOf d name) := by
  have hall : ∀ v ∈ s.versionsOf b name, s.isAhead b (s.endOf b) v = true :=
    fun v _ => by simp [isAhead]
  rw [visibleWith, hdoms]
  dsimp only
  rw [filter_eq_self.mpr hall, findSome?_cons]
  cases s.lastOf _ (s.versionsOf b name) <;> rfl

end State

end SingleAssignment.Builder
