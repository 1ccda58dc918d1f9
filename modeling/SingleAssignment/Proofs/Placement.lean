import SingleAssignment.Proofs.Tables

/-!
# Placing on timelines

`Timelines` collects what makes the view of a state meaningful: timelines name each instruction and
each version once, in the block it belongs to. Under it, placing an instruction, whether it is new
or takes the place of an empty one, is one insertion into the code of its block.
-/

namespace SingleAssignment.Builder

open Code List
open Option (bind_some isSome_iff_exists isSome_map map_eq_some_iff map_some)

theorem filter_insert_of_not {α : Type} {P : α → Bool} {x : α} (hx : P x = false) (A B : List α)
    (pos : Nat) :
    ((A ++ B).take (if A.length < pos then pos - 1 else pos)).filter P =
      ((A ++ x :: B).take pos).filter P ∧
    ((A ++ B).drop (if A.length < pos then pos - 1 else pos)).filter P =
      ((A ++ x :: B).drop pos).filter P := by
  by_cases h : A.length < pos
  · obtain ⟨k, rfl⟩ : ∃ k, pos = A.length + k + 1 := ⟨pos - A.length - 1, by omega⟩
    have htake : ∀ n, A.take (A.length + n) = A := fun n => take_of_length_le (by omega)
    have hdrop : ∀ n, A.drop (A.length + n) = [] := fun n => drop_of_length_le (by omega)
    simp [take_append, drop_append, hx, htake, hdrop, Nat.add_assoc]
  · have hk : pos - A.length = 0 := by omega
    simp [take_append, drop_append, h, hx, hk]

/-- What an empty instruction has nothing of. -/
def content (i : Instruction) : Option MemoryTag × Operand × Operand :=
  (i.memory, i.x, i.y)

/-- What makes a view of a state meaningful: timelines name each instruction and each version once,
in the block it belongs to, tables agree with them, and an empty instruction that holds a place
belongs to its block. -/
structure Timelines (s : State) : Prop where
  id_eq : ∀ {id i}, s.inst? id = some i → i.id = id
  blank : ∀ {id i}, s.inst? id = some i → i.op = .empty → content i = (none, .none, .none)
  nodup : ∀ b, (s.timelineOf b).Nodup
  owner : ∀ {b id}, .inst id ∈ s.timelineOf b → ∃ i, s.inst? id = some i ∧ i.block = b
  mark : ∀ {b v}, .mark v ∈ s.timelineOf b → ∃ ver, s.versions[v]? = some ver ∧ ver.block = b
  tabled : s.Tabled
  holder : ∀ {b blk p}, s.block? b = some blk → blk.placeholder = some p →
    ∃ i, s.inst? p = some i ∧ i.block = b

/-- The instruction that a draft becomes. -/
def State.Draft.instruction (d : State.Draft) (b : BlockId) (id : InstId) : Instruction :=
  face { id := id, op := d.op, x := d.x, y := d.y, block := b, srcX := d.srcX, srcY := d.srcY }

namespace State

theorem inst?_eq_none_of_size_lt {s : State} {id : InstId} (h : s.insts.size < id) :
    s.inst? id = none := by
  unfold inst?
  split
  · exact Array.getElem?_eq_none (by lia)
  · rfl

theorem inst?_push (s : State) (i : Instruction) (id : InstId) :
    { s with insts := s.insts.push i }.inst? id =
      if id = s.insts.size + 1 then some i else s.inst? id := by
  unfold inst?
  by_cases h : 0 < id
  · simp only [h, if_true, Array.getElem?_push]
    by_cases he : id = s.insts.size + 1
    · have : (id - 1).toNat = s.insts.size := by lia
      simp [he]
    · have : (id - 1).toNat ≠ s.insts.size := by lia
      simp only [this, he, if_false]
  · have he : id ≠ s.insts.size + 1 := by lia
    simp only [h, he, if_false]

theorem timelineOf_modifyBlock {s : State} {b : BlockId} {f : Block → Block} {blk : Block}
    (hb : s.block? b = some blk) (b' : BlockId) :
    (s.modifyBlock b f).timelineOf b' = if b' = b then (f blk).timeline else s.timelineOf b' := by
  unfold timelineOf
  rw [block?_modifyBlock]
  split
  · simp [hb]
  · rfl

theorem timelineOf_eq {s : State} {b : BlockId} {blk : Block} (hb : s.block? b = some blk) :
    s.timelineOf b = blk.timeline := by
  simp [timelineOf, hb]

theorem timelineOf_addVersion {s : State} {a : Version} {blk : Block} {pos : Nat}
    (hb : s.block? a.block = some blk) (b : BlockId) : (s.addVersion a pos).2.timelineOf b =
      if b = a.block then (s.timelineOf a.block).take pos ++
        .mark s.versions.size :: (s.timelineOf a.block).drop pos
      else s.timelineOf b := by
  rw [timelineOf_eq hb]
  exact timelineOf_modifyBlock (s := { s with versions := s.versions.push a }) hb b

end State

theorem nodup_insert_iff {α : Type} {A B : List α} {x : α} :
    (A ++ x :: B).Nodup ↔ x ∉ A ++ B ∧ (A ++ B).Nodup := by
  rw [perm_middle.nodup_iff, nodup_cons]

theorem mem_insert_iff {α : Type} {A B : List α} {x y : α} :
    y ∈ A ++ x :: B ↔ y = x ∨ y ∈ A ++ B := by
  rw [perm_middle.mem_iff, mem_cons]

/-- An empty instruction that is moved to a position leaves the code on both sides as it is. -/
theorem timeline_moved {blk : Block} (hT : blk.timeline.Nodup) {x : Slot} {P : Slot → Bool}
    (hx : P x = false) (pos : Nat) : ∃ L₁ L₂,
    (match blk.timeline.findIdx? (· == x) with
      | some k => (blk.removeSlot k).insertSlot (if k < pos then pos - 1 else pos) x
      | none => blk.insertSlot pos x).timeline = L₁ ++ x :: L₂ ∧
    (∀ y ∈ L₁ ++ L₂, y ∈ blk.timeline) ∧ (L₁ ++ x :: L₂).Nodup ∧
    L₁.filter P = (blk.timeline.take pos).filter P ∧
    L₂.filter P = (blk.timeline.drop pos).filter P := by
  split
  · rename_i k hk
    obtain ⟨hlt, hkx, -⟩ := findIdx?_eq_some_iff_getElem.mp hk
    obtain ⟨A, B, hAB, rfl⟩ : ∃ A B, blk.timeline = A ++ x :: B ∧ A.length = k := by
      refine ⟨blk.timeline.take k, blk.timeline.drop (k + 1), ?_,
        length_take_of_le (Nat.le_of_lt hlt)⟩
      rw [← beq_iff_eq.mp hkx, getElem_cons_drop, take_append_drop]
    have herase : (A ++ x :: B).eraseIdx A.length = A ++ B := by
      rw [eraseIdx_append_of_length_le (Nat.le_refl _)]
      simp
    rw [hAB] at hT
    simp only [Block.removeSlot, Block.insertSlot, hAB, herase]
    refine ⟨_, _, rfl, fun y hy => ?_, ?_, filter_insert_of_not hx A B pos⟩
    · rw [take_append_drop] at hy
      exact mem_insert_iff.mpr (.inr hy)
    · rw [nodup_insert_iff, take_append_drop]
      exact nodup_insert_iff.mp hT
  · rename_i hk
    have hnot : x ∉ blk.timeline := by
      intro h
      have := findIdx?_eq_none_iff.mp hk x h
      simp at this
    refine ⟨_, _, rfl, fun y hy => ?_, ?_, rfl, rfl⟩
    · rwa [take_append_drop] at hy
    · rw [nodup_insert_iff, take_append_drop]
      exact ⟨hnot, hT⟩

/-- One instruction of a block is new or takes the place of an empty one, and stands between two
parts of the timeline. -/
theorem State.view_eq_addInst {s t : State} {b : BlockId} {id : InstId} {i : Instruction}
    {L₁ L₂ : List Slot} (hinst : ∀ id', t.inst? id' = if id' = id then some i else s.inst? id')
    (hid : i.id = id) (hop : i.op ≠ .empty)
    (htime : ∀ b', t.timelineOf b' = if b' = b then L₁ ++ .inst id :: L₂ else s.timelineOf b')
    (hother : ∀ b', b' ≠ b → .inst id ∉ s.timelineOf b') (h₁ : .inst id ∉ L₁) (h₂ : .inst id ∉ L₂)
    (hrest : t.view = { s.view with insts := t.view.insts, code := t.view.code }) :
    t.view = s.view.addInst b (L₁.filter s.isCode) (L₂.filter s.isCode) (face i) := by
  have hcode : ∀ slot, slot ≠ .inst id → t.isCode slot = s.isCode slot := by
    intro slot hne
    cases slot with
    | mark v => rfl
    | inst id' =>
      have : id' ≠ id := fun h => hne (h ▸ rfl)
      simp [isCode, hinst, this]
  have hpart : ∀ L : List Slot, .inst id ∉ L → L.filter t.isCode = L.filter s.isCode :=
    fun L hL => filter_congr fun slot hmem => hcode slot fun h => hL (h ▸ hmem)
  have hnew : t.isCode (.inst id) = true := by simp [isCode, hinst, hop]
  rw [hrest]
  refine View.ext rfl rfl ?_ rfl ?_ rfl rfl rfl
  · funext id'
    simp only [view, View.addInst, hinst, Function.update_apply]
    rw [show (face i).id = id from hid]
    split
    · simp [Option.filter, hop]
    · rfl
  · funext b'
    simp only [view, View.addInst, code, htime, Function.update_apply]
    rw [show (face i).id = id from hid]
    split
    · rw [filter_append, filter_cons_of_pos hnew, hpart L₁ h₁, hpart L₂ h₂]
    · rename_i hne
      exact hpart _ (hother b' hne)

namespace Timelines

variable {s : State} {b : BlockId} {blk : Block} {d : State.Draft} {pos : Nat}

open State

/-- Timelines stay meaningful where one instruction is new or takes the place of an empty one. -/
theorem of_addInst {t : State} {id : InstId} {i : Instruction} {L₁ L₂ : List Slot}
    (hs : Timelines s) (hinst : ∀ id', t.inst? id' = if id' = id then some i else s.inst? id')
    (hid : i.id = id) (hblank : i.op = .empty → content i = (none, .none, .none))
    (hblock : i.block = b) (hold : ∀ i₀, s.inst? id = some i₀ → i₀.block = b)
    (htime : ∀ b', t.timelineOf b' = if b' = b then L₁ ++ .inst id :: L₂ else s.timelineOf b')
    (hnodup : (L₁ ++ .inst id :: L₂).Nodup) (hsub : ∀ slot ∈ L₁ ++ L₂, slot ∈ s.timelineOf b)
    (hversions : t.versions = s.versions) (hfiling : ∀ b', t.filing b' = s.filing b')
    (hholder : ∀ b' blk' p, t.block? b' = some blk' → blk'.placeholder = some p →
      (∃ i, t.inst? p = some i ∧ i.block = b') ∨
      ∃ blk, s.block? b' = some blk ∧ blk.placeholder = some p) : Timelines t := by
  have howner : ∀ {b' id'}, (∃ i', s.inst? id' = some i' ∧ i'.block = b') →
      ∃ i', t.inst? id' = some i' ∧ i'.block = b' := by
    rintro b' id' ⟨i', hi', hb'⟩
    rw [hinst]
    split
    · rename_i h
      subst h
      exact ⟨i, rfl, hblock.trans ((hold i' hi').symm.trans hb')⟩
    · exact ⟨i', hi', hb'⟩
  refine ⟨?_, ?_, ?_, ?_, ?_, hs.tabled.congr hfiling fun v => by rw [hversions], ?_⟩
  · intro id' i' hi'
    rw [hinst] at hi'
    split at hi'
    · rename_i h
      cases hi'
      exact hid.trans h.symm
    · exact hs.id_eq hi'
  · intro id' i' hi' hop
    rw [hinst] at hi'
    split at hi'
    · cases hi'
      exact hblank hop
    · exact hs.blank hi' hop
  · intro b'
    rw [htime]
    split
    · exact hnodup
    · exact hs.nodup b'
  · intro b' id' hmem
    rw [htime] at hmem
    split at hmem
    · rename_i h
      subst h
      rcases mem_insert_iff.mp hmem with h | h
      · cases h
        exact ⟨i, by rw [hinst, if_pos rfl], hblock⟩
      · exact howner (hs.owner (hsub _ h))
    · exact howner (hs.owner hmem)
  · intro b' v hmem
    rw [hversions]
    rw [htime] at hmem
    split at hmem
    · rename_i h
      subst h
      rcases mem_insert_iff.mp hmem with h | h
      · cases h
      · exact hs.mark (hsub _ h)
    · exact hs.mark hmem
  · intro b' blk' p hb' hp
    rcases hholder b' blk' p hb' hp with h | ⟨blk₀, hb₀, hp₀⟩
    · exact h
    · exact howner (hs.holder hb₀ hp₀)

/-- Timelines stay meaningful where no timeline changes and nothing changes its block. -/
theorem congr {t : State} (hs : Timelines s)
    (hinst : ∀ id, (t.inst? id).map (fun i => (i.id, i.block)) =
      (s.inst? id).map fun i => (i.id, i.block))
    (hblank : ∀ id i, t.inst? id = some i → i.op = .empty → content i = (none, .none, .none))
    (htime : ∀ b, t.timelineOf b = s.timelineOf b) (htable : ∀ b, t.tableOf b = s.tableOf b)
    (hversion : ∀ v : VersionId, (t.versions[v]?).map (fun a => (a.var, a.block)) =
      (s.versions[v]?).map fun a => (a.var, a.block))
    (hholder : ∀ b blk p, t.block? b = some blk → blk.placeholder = some p →
      (∃ i, t.inst? p = some i ∧ i.block = b) ∨
      ∃ blk₀, s.block? b = some blk₀ ∧ blk₀.placeholder = some p) : Timelines t := by
  have howner : ∀ {b' id'}, (∃ i', s.inst? id' = some i' ∧ i'.block = b') →
      ∃ i', t.inst? id' = some i' ∧ i'.block = b' := by
    rintro b' id' ⟨i', hi', hb'⟩
    have h := hinst id'
    rw [hi', map_some] at h
    obtain ⟨i, hi, he⟩ := map_eq_some_iff.mp h
    exact ⟨i, hi, (congrArg Prod.snd he).trans hb'⟩
  have htabled : t.Tabled := hs.tabled.congr (fun b => by rw [filing, htime, htable, filing])
    fun v => by
    simpa [Function.comp_def] using congrArg (Option.map Prod.fst) (hversion v)
  refine ⟨?_, hblank _ _, fun b => htime b ▸ hs.nodup b, ?_, ?_, htabled, ?_⟩
  · intro id i hi
    have h := hinst id
    rw [hi, map_some] at h
    obtain ⟨i₀, hi₀, he⟩ := map_eq_some_iff.mp h.symm
    exact (congrArg Prod.fst he).symm.trans (hs.id_eq hi₀)
  · intro b id hmem
    rw [htime] at hmem
    exact howner (hs.owner hmem)
  · intro b v hmem
    rw [htime] at hmem
    obtain ⟨ver, hv, hb⟩ := hs.mark hmem
    have h := hversion v
    rw [hv, map_some] at h
    obtain ⟨ver', hv', he⟩ := map_eq_some_iff.mp h
    exact ⟨ver', hv', (congrArg Prod.snd he).trans hb⟩
  · intro b blk p hb hp
    rcases hholder b blk p hb hp with h | ⟨blk₀, hb₀, hp₀⟩
    · exact h
    · exact howner (hs.holder hb₀ hp₀)

theorem version_of_mem (hs : Timelines s) {v : VersionId} {name : String}
    (hv : v ∈ s.versionsOf b name) :
    ∃ ver, s.versions[v]? = some ver ∧ ver.block = b ∧ ver.var = name := by
  obtain ⟨hmark, ver, hver, hvar⟩ := hs.tabled.mem_versionsOf.mp hv
  obtain ⟨ver', hver', hblock⟩ := hs.mark hmark
  cases hver.symm.trans hver'
  exact ⟨ver, hver, hblock, hvar⟩

theorem modifyInst {id : InstId} {f : Instruction → Instruction} (hs : Timelines s)
    (hid : ∀ i, (f i).id = i.id) (hblock : ∀ i, (f i).block = i.block)
    (hblank : ∀ i, s.inst? id = some i → (f i).op = .empty → i.op = .empty ∧
      content (f i) = content i) :
    Timelines (s.modifyInst id f) := by
  refine hs.congr (fun id' => ?_) (fun id' i' hi' hop => ?_)
    (fun b => timelineOf_modifyInst s id f b) (fun b => by rw [tableOf, tableOf, block?_modifyInst])
    (fun v => by rw [versions_modifyInst]) fun b blk p hb hp => .inr ⟨blk, by simpa using hb, hp⟩
  · rw [inst?_modifyInst]
    split
    · rename_i h
      subst h
      cases s.inst? id' <;> simp [hid, hblock]
    · rfl
  · rw [inst?_modifyInst] at hi'
    split at hi'
    · obtain ⟨i, hi, rfl⟩ := map_eq_some_iff.mp hi'
      obtain ⟨hop', hmem⟩ := hblank i hi hop
      exact hmem.trans (hs.blank hi hop')
    · exact hs.blank hi' hop

theorem modifyBlock {f : Block → Block} (hs : Timelines s)
    (htime : ∀ blk, (f blk).timeline = blk.timeline) (htable : ∀ blk, (f blk).table = blk.table)
    (hholder : ∀ blk p, (f blk).placeholder = some p →
      (∃ i, s.inst? p = some i ∧ i.block = b) ∨ blk.placeholder = some p) :
    Timelines (s.modifyBlock b f) := by
  refine hs.congr (fun id => by rw [inst?_modifyBlock]) (fun id i hi => ?_) (fun b' => ?_)
    (fun b' => congrArg (Option.getD · []) (map_block?_modifyBlock (·.table) htable b'))
    (fun v => by rw [versions_modifyBlock]) fun b' blk p hb hp => ?_
  · rw [inst?_modifyBlock] at hi
    exact hs.blank hi
  · exact congrArg (Option.getD · []) (map_block?_modifyBlock (·.timeline) htime b')
  · rw [block?_modifyBlock] at hb
    split at hb
    · rename_i h
      subst h
      obtain ⟨blk₀, hb₀, rfl⟩ := map_eq_some_iff.mp hb
      rw [inst?_modifyBlock]
      exact (hholder _ _ hp).imp id fun h => ⟨blk₀, hb₀, h⟩
    · exact .inr ⟨blk, hb, hp⟩

theorem modifyVersion {v : VersionId} {f : Version → Version} (hs : Timelines s)
    (hvar : ∀ ver, (f ver).var = ver.var) (hblock : ∀ ver, (f ver).block = ver.block) :
    Timelines (s.modifyVersion v f) := by
  refine hs.congr (fun _ => rfl) (fun _ _ hi => hs.blank hi) (fun _ => rfl) (fun _ => rfl)
    (fun v' => ?_) fun b blk p hb hp => .inr ⟨blk, hb, hp⟩
  simp only [State.modifyVersion, Array.getElem?_modify]
  split
  · rename_i h
    subst h
    cases s.versions[v]? <;> simp [hvar, hblock]
  · rfl

theorem size_not_mem (hs : Timelines s) (b' : BlockId) :
    .inst ((s.insts.size : Int) + 1) ∉ s.timelineOf b' := by
  intro h
  obtain ⟨i, hi, -⟩ := hs.owner h
  rw [inst?_eq_none_of_size_lt (by lia)] at hi
  cases hi

section New

variable (s b d pos)

theorem inst?_insertNew (id : InstId) : (s.insertNew b d pos).2.inst? id =
    if id = s.insts.size + 1 then
      some { id := s.insts.size + 1, op := d.op, x := d.x, y := d.y, block := b, srcX := d.srcX,
             srcY := d.srcY }
    else s.inst? id :=
  (inst?_modifyBlock (s.alloc b d).2 b _ id).trans (inst?_push s _ id)

theorem versions_insertNew : (s.insertNew b d pos).2.versions = s.versions :=
  versions_modifyBlock (s.alloc b d).2 b _

theorem filing_insertNew (b' : BlockId) : (s.insertNew b d pos).2.filing b' = s.filing b' :=
  filing_modifyBlock (s := (s.alloc b d).2) (f := (·.insertSlot pos _)) (fun _ => rfl)
    (fun blk => blk.marks_insertSlot pos _) b b'

variable {s b}

theorem timelineOf_insertNew (hb : s.block? b = some blk) (b' : BlockId) :
    (s.insertNew b d pos).2.timelineOf b' =
      if b' = b then
        (s.timelineOf b).take pos ++ .inst (s.insts.size + 1) :: (s.timelineOf b).drop pos
      else s.timelineOf b' := by
  rw [timelineOf_eq hb]
  exact timelineOf_modifyBlock (s := (s.alloc b d).2) hb b'

theorem map_block?_insertNew (hb : s.block? b = some blk) {α : Type} (g : Block → α)
    (hg : ∀ blk slot, g (blk.insertSlot pos slot) = g blk) (b' : BlockId) :
    ((s.insertNew b d pos).2.block? b').map g = (s.block? b').map g := by
  refine (congrArg (Option.map g) (block?_modifyBlock (s.alloc b d).2 b b' _)).trans ?_
  split
  · rename_i h
    subst h
    rw [show (s.alloc b' d).2.block? b' = some blk from hb, hb]
    simp [hg]
  · rfl

/-- What a new instruction leaves as it is. -/
theorem view_insertNew (hb : s.block? b = some blk) : (s.insertNew b d pos).2.view =
    { s.view with
      insts := (s.insertNew b d pos).2.view.insts
      code := (s.insertNew b d pos).2.view.code } := by
  refine View.ext ?_ ?_ rfl ?_ rfl ?_ ?_ ?_
  · exact size_modifyBlock (s.alloc b d).2 b _
  · exact funext (map_block?_insertNew d pos hb Block.shape fun _ _ => rfl)
  · funext v
    exact congrArg (fun a : Array Version => (a[v]?).map fun ver => { ver with history := [] })
      (versions_insertNew s b d pos)
  · funext b'
    exact congrArg (Option.getD · [])
      (map_block?_insertNew d pos hb (·.entries) (fun _ _ => rfl) b')
  · funext b'
    exact congrArg (Option.getD · [])
      (map_block?_insertNew d pos hb (·.joinVars.toList) (fun _ _ => rfl) b')
  · exact arrays_modifyBlock (s.alloc b d).2 b _

theorem of_insertNew (hs : Timelines s) (hb : s.block? b = some blk)
    (hd : d.op = .empty → d.x = .none ∧ d.y = .none) : Timelines (s.insertNew b d pos).2 := by
  refine hs.of_addInst (inst?_insertNew s b d pos) rfl (fun he => ?_) rfl ?_
    (timelineOf_insertNew d pos hb) ?_ ?_ (versions_insertNew s b d pos)
    (filing_insertNew s b d pos) fun b' blk' p hb' hp => ?_
  · obtain ⟨hx, hy⟩ := hd he
    simp only [content, hx, hy]
  · intro i₀ hi₀
    rw [inst?_eq_none_of_size_lt (by lia)] at hi₀
    cases hi₀
  · rw [nodup_insert_iff, take_append_drop]
    exact ⟨hs.size_not_mem b, hs.nodup b⟩
  · rw [take_append_drop]
    exact fun _ h => h
  · refine .inr ?_
    have := map_block?_insertNew d pos hb (·.placeholder) (fun _ _ => rfl) b'
    rw [hb', map_some, hp] at this
    exact map_eq_some_iff.mp this.symm

end New

/-- A new instruction at a position of a timeline. -/
theorem insertNew (hs : Timelines s) (hb : s.block? b = some blk) (hd : d.op ≠ .empty) :
    s.view.insts (s.insertNew b d pos).1 = none ∧
    (s.insertNew b d pos).2.view = s.view.addInst b (s.codeBefore b pos) (s.codeFrom b pos)
      (d.instruction b (s.insertNew b d pos).1) ∧
    Timelines (s.insertNew b d pos).2 := by
  refine ⟨?_, ?_, hs.of_insertNew d pos hb fun he => absurd he hd⟩
  · show ((s.inst? (s.insts.size + 1)).filter _).map face = none
    rw [inst?_eq_none_of_size_lt (by lia)]
    rfl
  · exact view_eq_addInst (inst?_insertNew s b d pos) rfl hd (timelineOf_insertNew d pos hb)
      (fun b' _ => hs.size_not_mem b') (fun h => hs.size_not_mem b (mem_of_mem_take h))
      (fun h => hs.size_not_mem b (mem_of_mem_drop h)) (view_insertNew d pos hb)

/-- A new empty instruction is not seen. -/
theorem insertEmpty (hb : s.block? b = some blk) :
    (s.insertNew b { op := .empty } pos).2.view = s.view := by
  have hinst := inst?_insertNew s b { op := .empty } pos
  have hnew : s.inst? (s.insts.size + 1) = none := inst?_eq_none_of_size_lt (by lia)
  have hcode : (s.insertNew b { op := .empty } pos).2.isCode = s.isCode := by
    funext slot
    cases slot with
    | mark v => rfl
    | inst id =>
      simp only [isCode, hinst]
      split
      · rename_i h
        rw [h, hnew]
        rfl
      · rfl
  rw [view_insertNew { op := .empty } pos hb]
  refine View.ext rfl rfl ?_ rfl ?_ rfl rfl rfl
  · funext id
    simp only [view, hinst]
    split
    · rename_i h
      rw [h, hnew]
      rfl
    · rfl
  · funext b'
    show ((s.insertNew b { op := .empty } pos).2.timelineOf b').filter _ = _
    rw [hcode, timelineOf_insertNew { op := .empty } pos hb]
    split
    · rename_i h
      subst h
      have hempty : s.isCode (.inst (s.insts.size + 1)) = false := by simp [isCode, hnew]
      rw [filter_append, filter_cons_of_neg (by simp [hempty]), ← filter_append, take_append_drop]
      rfl
    · rfl

/-- A drafted instruction in the place of an empty one of its block. -/
theorem overwrite (hs : Timelines s) (hb : s.block? b = some blk) (hd : d.op ≠ .empty) {p : InstId}
    {i : Instruction} (hi : s.inst? p = some i) (hop : i.op = .empty) (hblock : i.block = b) :
    s.view.insts p = none ∧
    (s.overwrite b p d pos).view = s.view.addInst b (s.codeBefore b pos) (s.codeFrom b pos)
      (d.instruction b p) ∧
    Timelines (s.overwrite b p d pos) := by
  let i' : Instruction :=
    { i with op := d.op, x := d.x, y := d.y, srcX := d.srcX, srcY := d.srcY, active := true }
  have hid := hs.id_eq hi
  have hmemory : i.memory = none := congrArg (·.1) (hs.blank hi hop)
  have hface : face i' = d.instruction b p := by
    subst hid hblock
    simp only [face, i', Draft.instruction, Instruction.isTarget, hmemory]
    rfl
  let t := s.modifyInst p fun i =>
    { i with op := d.op, x := d.x, y := d.y, srcX := d.srcX, srcY := d.srcY, active := true }
  let move : Block → Block := fun blk => blk.moveSlot (.inst p) pos
  have hbt : t.block? b = some blk := (block?_modifyInst s p _ b).trans hb
  have hinst : ∀ id', (s.overwrite b p d pos).inst? id' =
      if id' = p then some i' else s.inst? id' := by
    intro id'
    refine (inst?_modifyBlock t b _ id').trans ((inst?_modifyInst s p id' _).trans ?_)
    rw [hi]
    rfl
  obtain ⟨L₁, L₂, hL, hsub, hnodup, hL₁, hL₂⟩ :=
    timeline_moved (P := s.isCode) (timelineOf_eq hb ▸ hs.nodup b)
      (show s.isCode (.inst p) = false by simp [isCode, hi, hop]) pos
  have htime : ∀ b', (s.overwrite b p d pos).timelineOf b' =
      if b' = b then L₁ ++ .inst p :: L₂ else s.timelineOf b' := by
    intro b'
    rw [← hL, ← timelineOf_modifyInst s p _ b']
    exact timelineOf_modifyBlock (f := move) hbt b'
  have hmap : ∀ {α : Type} (g : Block → α), (∀ blk, g (move blk) = g blk) →
      ∀ b', ((s.overwrite b p d pos).block? b').map g = (s.block? b').map g := by
    intro α g hg b'
    refine (congrArg (Option.map g) (block?_modifyBlock t b b' move)).trans ?_
    split
    · rename_i h
      subst h
      rw [hbt, hb]
      simp [hg]
    · exact congrArg (Option.map g) (block?_modifyInst s p _ b')
  have hfiling : ∀ b', (s.overwrite b p d pos).filing b' = s.filing b' :=
    fun b' => (filing_moveSlot t b b' p pos).trans (filing_modifyInst s p _ b')
  have hnotin := (nodup_insert_iff.mp hnodup).1
  refine ⟨?_, ?_, ?_⟩
  · show ((s.inst? p).filter _).map face = none
    simp [hi, hop, Option.filter]
  · have hview := view_eq_addInst hinst hid hd htime ?_
      (fun h => hnotin (mem_append_left _ h)) (fun h => hnotin (mem_append_right _ h))
      (View.ext ?_ ?_ rfl ?_ rfl ?_ ?_ ?_)
    · rw [hview, hface, hL₁, hL₂, ← timelineOf_eq hb]
      rfl
    · intro b' hne hmem
      obtain ⟨i₀, hi₀, hb₀⟩ := hs.owner hmem
      rw [hi] at hi₀
      cases hi₀
      exact hne (hb₀.symm.trans hblock)
    · exact (size_modifyBlock t b _).trans (size_modifyInst s p _)
    · funext b'
      exact hmap Block.shape (fun blk => blk.moveSlot_of Block.shape (fun _ _ _ => rfl)
        (fun _ _ => rfl) _ pos) b'
    · funext v
      exact congrArg (fun a : Array Version => (a[v]?).map fun ver => { ver with history := [] })
        ((versions_modifyBlock t b _).trans (versions_modifyInst s p _))
    · funext b'
      exact congrArg (Option.getD · []) (hmap (·.entries)
        (fun blk => blk.moveSlot_of (·.entries) (fun _ _ _ => rfl) (fun _ _ => rfl) _ pos) b')
    · funext b'
      exact congrArg (Option.getD · []) (hmap (·.joinVars.toList)
        (fun blk => blk.moveSlot_of (·.joinVars.toList) (fun _ _ _ => rfl) (fun _ _ => rfl) _ pos)
        b')
    · exact (arrays_modifyBlock t b _).trans (arrays_modifyInst s p _)
  · refine hs.of_addInst hinst hid (fun h => absurd h hd) hblock ?_ htime hnodup
      (fun slot h => timelineOf_eq hb ▸ hsub slot h)
      ((versions_modifyBlock t b _).trans (versions_modifyInst s p _)) hfiling
      fun b' blk' q hb' hq => ?_
    · intro i₀ hi₀
      rw [hi] at hi₀
      cases hi₀
      exact hblock
    · refine .inr ?_
      have := hmap (·.placeholder)
        (fun blk => blk.moveSlot_of (·.placeholder) (fun _ _ _ => rfl) (fun _ _ => rfl) _ pos) b'
      rw [hb', map_some, hq] at this
      exact map_eq_some_iff.mp this.symm

/-- An instruction that is placed stands between the code before and behind its position. -/
theorem place (hs : Timelines s) (hb : s.block? b = some blk) (hd : d.op ≠ .empty) :
    s.view.insts (s.place b d pos).1 = none ∧
    (s.place b d pos).2.view = s.view.addInst b (s.codeBefore b pos) (s.codeFrom b pos)
      (d.instruction b (s.place b d pos).1) ∧
    Timelines (s.place b d pos).2 := by
  unfold State.place
  rw [hb]
  dsimp only [bind_some]
  cases hp : blk.placeholder with
  | none => exact hs.insertNew hb hd
  | some p =>
    let t := s.modifyBlock b fun blk => { blk with placeholder := none }
    have hbt : t.block? b = some { blk with placeholder := none } := by
      simp [t, hb]
    have ht : Timelines t := hs.modifyBlock (fun _ => rfl) (fun _ => rfl) fun _ _ h => by cases h
    have hview : t.view = s.view :=
      view_modifyBlock (fun _ => rfl) (fun _ => rfl) (fun _ => rfl) fun _ => rfl
    have htime : t.timelineOf b = s.timelineOf b := by
      rw [timelineOf_eq hbt, timelineOf_eq hb]
    have hcode : t.isCode = s.isCode := by
      funext slot
      cases slot <;> simp [isCode, t]
    have hbefore : t.codeBefore b pos = s.codeBefore b pos := by
      rw [codeBefore, htime, hcode]
      rfl
    have hfrom : t.codeFrom b pos = s.codeFrom b pos := by
      rw [codeFrom, htime, hcode]
      rfl
    obtain ⟨i, hi, hblock⟩ := hs.holder hb hp
    have hit : t.inst? p = some i := (inst?_modifyBlock s b _ p).trans hi
    rw [← hview, ← hbefore, ← hfrom]
    dsimp only
    simp only [if_neg hd, inst?_modifyBlock, hi, Option.any_some]
    by_cases hop : i.op = .empty
    · simp only [hop, beq_self_eq_true, if_true]
      exact ht.overwrite hbt hd hit hop hblock
    · simp only [beq_iff_eq, hop, if_false]
      exact ht.insertNew hbt hd

end Timelines

/-- An instruction of the view is one of the state. -/
theorem State.inst?_of_view {s : State} {id : InstId} {i : Instruction}
    (h : s.view.insts id = some i) : ∃ i₀, s.inst? id = some i₀ ∧ i₀.op ≠ .empty ∧ face i₀ = i := by
  obtain ⟨i₀, hi₀, rfl⟩ := map_eq_some_iff.mp h
  obtain ⟨hi₀, hop⟩ := Option.filter_eq_some_iff.mp hi₀
  exact ⟨i₀, hi₀, bne_iff_ne.mp hop, rfl⟩

theorem State.view_of_inst? {s : State} {id : InstId} {i : Instruction} (h : s.inst? id = some i)
    (hop : i.op ≠ .empty) : s.view.insts id = some (face i) := by
  simp [State.view, h, Option.filter, hop]

/-! ## What the operations of the builder do to the view -/

/-- The instruction that a draft becomes where it takes part in value numbering. -/
def State.Draft.numbered (d : State.Draft) (b : BlockId) (id : InstId) (tag : MemoryTag) :
    Instruction :=
  if d.op = .load then { d.instruction b id with memory := some tag } else d.instruction b id

namespace View

/-- Whether a slot belongs to the phis and heads that come first in a block. -/
def isLead (V : View) : Slot → Bool
  | .inst id => (V.insts id).any (·.op == .phi)
  | .mark v => (V.versions v).any (·.isHead)

@[simp] theorem addInst_insts_self (V : View) (b : BlockId) (before after : List Slot)
    (i : Instruction) : (V.addInst b before after i).insts i.id = some i :=
  Function.update_self ..

theorem setInst_record_addInst (V : View) (b : BlockId) (before after : List Slot)
    (i i' : Instruction) (e : Entry) (h : i'.id = i.id) :
    ((V.addInst b before after i).record b e).setInst i.id i' =
      (V.addInst b before after i').record b e := by
  simp only [addInst, record, setInst, h, Function.update_idem]

end View

namespace Timelines

variable {s : State} {b : BlockId} {blk : Block} {d : State.Draft} {pos : Nat}

open State

theorem record (hs : Timelines s) (e : Entry) : Timelines (s.record b e) :=
  hs.modifyBlock (fun _ => rfl) (fun _ => rfl) fun _ _ h => .inr h

theorem block?_place (hb : s.block? b = some blk) : ∃ blk', (s.place b d pos).2.block?
    b = some blk' := by
  have hnew : ∀ (t : State) (blk : Block), t.block? b = some blk →
      ∃ blk', (t.insertNew b d pos).2.block? b = some blk' := by
    intro t blk ht
    simp only [State.insertNew, block?_modifyBlock, if_true]
    exact ⟨_, congrArg (Option.map _) ht⟩
  unfold State.place
  split
  · exact hnew s blk hb
  · split
    · exact hnew s blk hb
    · dsimp only
      split
      · simp [State.overwrite, hb]
      · exact hnew _ { blk with placeholder := none } (by simp [hb])

/-- A numbered instruction that is placed stands between the code before and behind its position,
and its block knows its value. -/
theorem placeNumbered (hs : Timelines s) (hb : s.block? b = some blk) (hd : d.op ≠ .empty)
    (tag : MemoryTag) :
    s.view.insts (s.placeNumbered b d tag pos).1 = none ∧
    (s.placeNumbered b d tag pos).2.view =
      (s.view.addInst b (s.codeBefore b pos) (s.codeFrom b pos)
        (d.numbered b (s.placeNumbered b d tag pos).1 tag)).record b
        { op := d.op, id := (s.placeNumbered b d tag pos).1, x := d.x, y := d.y, tag := tag } ∧
    Timelines (s.placeNumbered b d tag pos).2 := by
  obtain ⟨hfresh, hview, ht⟩ := @Timelines.place s b blk d pos hs hb hd
  obtain ⟨blk', hb'⟩ := @block?_place s b blk d pos hb
  have hrecord := view_record (e := ⟨d.op, (s.place b d pos).1, d.x, d.y, tag⟩) hb'
  rw [hview] at hrecord
  by_cases hload : d.op = .load
  · obtain ⟨op, x, y, srcX, srcY⟩ := d
    dsimp only at hload
    subst hload
    have hid := (congrFun (congrArg View.insts hrecord) _).trans
      (View.addInst_insts_self s.view b (s.codeBefore b pos) (s.codeFrom b pos)
        (Draft.instruction ⟨.load, x, y, srcX, srcY⟩ b (s.place b ⟨.load, x, y, srcX, srcY⟩ pos).1))
    obtain ⟨i, hi, hop, hface⟩ := inst?_of_view hid
    refine ⟨hfresh, ?_, ?_⟩
    · refine (view_modifyInst hi hop hop).trans ?_
      rw [hrecord, show face { i with memory := some tag } = { face i with memory := some tag } from
        rfl, hface]
      exact View.setInst_record_addInst _ _ _ _ _ _ _ rfl
    · refine (ht.record _).modifyInst (fun _ => rfl) (fun _ => rfl) fun i' hi' hop' => ?_
      cases hi.symm.trans hi'
      exact absurd hop' hop
  · simp only [State.placeNumbered, Draft.numbered, hload, beq_eq_false_iff_ne.mpr hload]
    exact ⟨hfresh, hrecord, ht.record _⟩

theorem isLead_view (slot : Slot) : s.view.isLead slot =
    match slot with
    | .inst id => (s.inst? id).any (·.op == .phi)
    | .mark v => (s.versions[v]?).any (·.isHead) := by
  cases slot with
  | inst id =>
    simp only [View.isLead, view]
    cases s.inst? id with
    | none => rfl
    | some i => by_cases h : i.op = .empty <;> simp [Option.filter, h, face]
  | mark v =>
    simp only [View.isLead, view]
    cases s.versions[v]? <;> rfl

theorem leadingRun_eq : s.leadingRun b = ((s.timelineOf b).takeWhile s.view.isLead).length := by
  unfold leadingRun
  congr 2
  funext slot
  exact (isLead_view slot).symm

/-- Every slot in front of the end of the leading run is a phi or a head. -/
theorem isLead_of_mem_codeBefore {slot : Slot} (h : slot ∈ s.codeBefore b (s.leadingRun b)) :
    s.view.isLead slot = true := by
  have hmem := (mem_filter.mp h).1
  rw [leadingRun_eq] at hmem
  generalize s.timelineOf b = l at hmem
  induction l with
  | nil => cases hmem
  | cons a l ih =>
    by_cases ha : s.view.isLead a = true
    · rw [takeWhile_cons_of_pos ha, length_cons, take_succ_cons, mem_cons] at hmem
      rcases hmem with rfl | hmem
      · exact ha
      · exact ih hmem
    · rw [takeWhile_cons_of_neg ha] at hmem
      cases hmem

/-- A new phi stands in the leading run of its block. -/
theorem emitPhi (hs : Timelines s) (hb : s.block? b = some blk) (x y : Value) :
    ∃ before after id, (∀ slot ∈ before, s.view.isLead slot = true) ∧
      s.code b = before ++ after ∧ s.view.insts id = none ∧
      (s.emitPhi b x y).1 = ⟨id, .result .phi id .absent .absent {}⟩ ∧
      (s.emitPhi b x y).2.view = (s.view.addInst b before after
        (Draft.instruction ⟨.phi, x.operand, y.operand, x.src, y.src⟩ b id)).record b
        ⟨.phi, id, x.operand, y.operand, {}⟩ ∧
      Timelines (s.emitPhi b x y).2 := by
  let d : Draft := ⟨.phi, x.operand, y.operand, x.src, y.src⟩
  obtain ⟨hfresh, hview, ht⟩ := @Timelines.insertNew s b blk d (s.leadingRun b) hs hb nofun
  have hb' : (s.insertNew b d (s.leadingRun b)).2.block? b =
      some (blk.insertSlot (s.leadingRun b) (.inst (s.insts.size + 1))) := by
    simp [State.insertNew, State.alloc]
    exact ⟨_, hb, rfl⟩
  refine ⟨s.codeBefore b (s.leadingRun b), s.codeFrom b (s.leadingRun b), s.insts.size + 1,
    fun _ => isLead_of_mem_codeBefore, (s.codeBefore_append_codeFrom _ _).symm, hfresh,
    rfl, (view_record hb').trans ?_, ht.record _⟩
  rw [hview]
  rfl

section AddVersion

variable {ver : Version}

theorem map_block?_addVersion (hb : s.block? ver.block = some blk) {α : Type} {g : Block → α}
    (hg : ∀ blk name v, g (blk.addVersion pos name v) = g blk) (b' : BlockId) :
    ((s.addVersion ver pos).2.block? b').map g = (s.block? b').map g := by
  refine (congrArg (Option.map g)
    (block?_modifyBlock { s with versions := s.versions.push ver } ver.block b' _)).trans ?_
  have hbt : { s with versions := s.versions.push ver }.block? ver.block = some blk := hb
  split
  · rename_i h
    subst h
    rw [hbt, hb]
    simp [hg]
  · rfl

theorem view_addVersion (hb : s.block? ver.block = some blk) :
    (s.addVersion ver pos).2.view = s.view.addMark ver.block (s.codeBefore ver.block pos)
      (s.codeFrom ver.block pos) s.versions.size { ver with history := [] } := by
  have hcode : (s.addVersion ver pos).2.isCode = s.isCode := by
    funext slot
    cases slot with
    | inst id => simp only [isCode, inst?_addVersion]
    | mark v => rfl
  have hmap : ∀ {α : Type} (g : Block → α), (∀ blk name v, g (blk.addVersion pos name v) = g blk) →
      ∀ b', ((s.addVersion ver pos).2.block? b').map g = (s.block? b').map g :=
    fun _ hg => map_block?_addVersion hb hg
  refine View.ext (size_modifyBlock _ _ _) (funext (hmap Block.shape fun _ _ _ => rfl))
    ?_ ?_ ?_ ?_ ?_ (arrays_modifyBlock _ _ _)
  · funext id
    simp only [view, View.addMark, inst?_addVersion]
  · funext v
    simp only [view, View.addMark, versions_addVersion, Function.update_apply]
    split <;> rfl
  · funext b'
    simp only [view, View.addMark, State.code, timelineOf_addVersion hb, hcode,
      Function.update_apply]
    split
    · rw [filter_append, filter_cons_of_pos rfl]
      rfl
    · rfl
  · funext b'
    exact congrArg (Option.getD · []) (hmap (·.entries) (fun _ _ _ => rfl) b')
  · funext b'
    exact congrArg (Option.getD · []) (hmap (·.joinVars.toList) (fun _ _ _ => rfl) b')

theorem of_addVersion (hs : Timelines s) (hb : s.block? ver.block = some blk) :
    Timelines (s.addVersion ver pos).2 := by
  have hmem : ∀ {b' x}, x ∈ (s.addVersion ver pos).2.timelineOf b' →
      x = .mark s.versions.size ∧ b' = ver.block ∨ x ∈ s.timelineOf b' := by
    intro b' x hx
    rw [timelineOf_addVersion hb] at hx
    split at hx
    · rename_i h
      rw [mem_insert_iff, take_append_drop] at hx
      exact hx.imp (fun he => ⟨he, h⟩) fun hx => h ▸ hx
    · exact .inr hx
  have hnew : .mark s.versions.size ∉ s.timelineOf ver.block := by
    intro h
    obtain ⟨ver', hv', -⟩ := hs.mark h
    simp at hv'
  exact {
    id_eq := fun {id i} hi => hs.id_eq (inst?_addVersion s ver pos id ▸ hi)
    blank := fun {id i} hi => hs.blank (inst?_addVersion s ver pos id ▸ hi)
    nodup := fun b' => by
      rw [timelineOf_addVersion hb]
      split
      · rw [nodup_insert_iff, take_append_drop]
        exact ⟨hnew, hs.nodup _⟩
      · exact hs.nodup b'
    owner := fun {b' id} hid => by
      rw [inst?_addVersion]
      rcases hmem hid with ⟨he, -⟩ | hid
      · cases he
      · exact hs.owner hid
    mark := fun {b' v} hv => by
      rw [versions_addVersion]
      rcases hmem hv with ⟨he, rfl⟩ | hv
      · cases he
        exact ⟨ver, if_pos rfl, rfl⟩
      · obtain ⟨ver', hv', hb'⟩ := hs.mark hv
        rw [if_neg (Nat.ne_of_lt (Array.getElem?_eq_some_iff.mp hv').1)]
        exact ⟨ver', hv', hb'⟩
    tabled := hs.tabled.addVersion hb (timelineOf_eq hb ▸ hs.nodup _) fun hv => by
      obtain ⟨ver', hv', -⟩ := hs.mark hv
      exact (Array.getElem?_eq_some_iff.mp hv').1
    holder := fun {b' blk' p} hb' hp => by
      have hold : ((s.addVersion ver pos).2.block? b').map (·.placeholder) = (s.block? b').map
        (·.placeholder) :=
        map_block?_addVersion hb (fun _ _ _ => rfl) b'
      rw [hb', map_some, hp] at hold
      obtain ⟨blk₀, hb₀, hp₀⟩ := map_eq_some_iff.mp hold.symm
      rw [inst?_addVersion]
      exact hs.holder hb₀ hp₀ }

end AddVersion

/-- A version that is added is marked between the code before and behind its position. -/
theorem addVersion (hs : Timelines s) {ver : Version} (hb : s.block? ver.block = some blk) :
    (s.addVersion ver pos).1 = s.versions.size ∧ s.view.versions s.versions.size = none ∧
    (s.addVersion ver pos).2.view = s.view.addMark ver.block (s.codeBefore ver.block pos)
      (s.codeFrom ver.block pos) s.versions.size { ver with history := [] } ∧
    Timelines (s.addVersion ver pos).2 :=
  ⟨rfl, by simp [view], view_addVersion hb, hs.of_addVersion hb⟩

theorem report (hs : Timelines s) (e : Event) : Timelines (s.report e) :=
  ⟨hs.id_eq, hs.blank, hs.nodup, hs.owner, hs.mark, hs.tabled, hs.holder⟩

theorem foldl_modifyInst {f : InstId → Instruction → Instruction} (hs : Timelines s)
    (hid : ∀ id i, (f id i).id = i.id) (hblock : ∀ id i, (f id i).block = i.block)
    (hop : ∀ id i, (f id i).op = i.op) (hmem : ∀ id i, content (f id i) = content i)
    (hface : ∀ id i, face (f id i) = face i) (ids : List InstId) :
    (ids.foldl (fun s id => s.modifyInst id (f id)) s).view = s.view ∧
      Timelines (ids.foldl (fun s id => s.modifyInst id (f id)) s) := by
  induction ids generalizing s with
  | nil => exact ⟨rfl, hs⟩
  | cons id ids ih =>
    have ht : Timelines (s.modifyInst id (f id)) :=
      hs.modifyInst (hid id) (hblock id) fun i _ h => ⟨(hop id i).symm.trans h, hmem id i⟩
    obtain ⟨hview, hrest⟩ := ih ht
    exact ⟨hview.trans (view_modifyInst_of_face (fun i _ => hop id i) fun i _ _ => hface id i),
      hrest⟩

theorem face_addDep (r : VersionRef) (i : Instruction) : face (i.addDep r) = face i := by
  unfold Instruction.addDep
  split <;> rfl

/-- Back references are not seen. -/
theorem depend (hs : Timelines s) (v : VersionId) :
    (s.depend v).view = s.view ∧ Timelines (s.depend v) := by
  unfold State.depend
  split
  · exact ⟨rfl, hs⟩
  · rename_i ver _
    have hsame : ∀ {α : Type} (g : Instruction → α), (∀ i deps, g { i with deps := deps } = g i) →
        ∀ i, g (i.addDep ver.ref) = g i := by
      intro α g hg i
      unfold Instruction.addDep
      split
      · rfl
      · exact hg i _
    exact hs.foldl_modifyInst (fun _ => hsame (·.id) fun _ _ => rfl)
      (fun _ => hsame (·.block) fun _ _ => rfl) (fun _ => hsame (·.op) fun _ _ => rfl)
      (fun _ => hsame content fun _ _ => rfl) (fun _ => face_addDep ver.ref) _

/-- An empty instruction never takes the place of another. -/
theorem place_empty (s : State) (b : BlockId) (pos : Nat) :
    s.place b { op := .empty } pos = s.insertNew b { op := .empty } pos := by
  unfold State.place
  split
  · rfl
  · rw [if_pos rfl]

/-- The targets of branches are not seen. -/
theorem entryPoint (hs : Timelines s) (hb : s.block? b = some blk) :
    (s.entryPoint b).2.view = s.view ∧ Timelines (s.entryPoint b).2 ∧
    (∀ id i, s.inst? id = some i → (s.entryPoint b).2.inst? id = some i) ∧
    (∀ b', (s.block? b').isSome → ((s.entryPoint b).2.block? b').isSome) := by
  unfold State.entryPoint
  split
  · exact ⟨rfl, hs, fun _ _ h => h, fun _ h => h⟩
  · dsimp only
    rw [place_empty]
    have ht := hs.of_insertNew { op := .empty } (s.endOf b) hb fun _ => ⟨rfl, rfl⟩
    have hinst := inst?_insertNew s b { op := .empty } (s.endOf b)
    refine ⟨?_, ?_, fun id i hi => ?_, fun b' hb' => ?_⟩
    · exact (view_modifyBlock (f := fun blk => { blk with placeholder := some _ }) (fun _ => rfl)
        (fun _ => rfl) (fun _ => rfl) fun _ => rfl).trans (insertEmpty hb)
    · refine ht.modifyBlock (fun _ => rfl) (fun _ => rfl) fun _ p hp => .inl ?_
      cases hp
      rw [hinst]
      exact ⟨_, if_pos rfl, rfl⟩
    · rw [inst?_modifyBlock, hinst, if_neg]
      · exact hi
      · rintro rfl
        rw [inst?_eq_none_of_size_lt (by lia)] at hi
        cases hi
    · have hsome : (((s.insertNew b { op := .empty } (s.endOf b)).2.block? b').map fun _ => ()) =
          (s.block? b').map fun _ => () :=
        map_block?_insertNew _ _ hb (fun _ => ()) (fun _ _ => rfl) b'
      rw [← isSome_map (f := fun _ : Block => ()), ← hsome, isSome_map] at hb'
      rw [block?_modifyBlock]
      split
      · rename_i h
        subst h
        rwa [isSome_map]
      · exact hb'

end Timelines

/-- What is known of the branches that were deferred: each waits for a block with code, in a slot
that holds a target. -/
def Deferrals (s : State) : Prop :=
  ∀ d ∈ s.deferrals.toList, (s.block? d.target).isSome ∧ d.target ≠ entryBlock ∧
    ∃ i, s.inst? d.inst = some i ∧ i.isTarget d.side = true

namespace Timelines

variable {s : State}

open State

theorem face_withSlot {i : Instruction} {side : Side} (h : i.isTarget side = true) (o : Operand) :
    face (i.withSlot side o) = face i := by
  have hsame : ∀ side', (i.withSlot side o).isTarget side' = i.isTarget side' := by
    intro side'
    cases side <;> rfl
  unfold face
  cases side <;> simp only [hsame, h, if_true] <;> rfl

theorem resolveBranch (hs : Timelines s) {d : Deferral} (hb : (s.block? d.target).isSome)
    (hd : ∃ i, s.inst? d.inst = some i ∧ i.isTarget d.side = true) :
    (s.resolveBranch d).view = s.view ∧ Timelines (s.resolveBranch d) ∧
    (∀ id i, s.inst? id = some i → ∃ i', (s.resolveBranch d).inst? id = some i' ∧ i'.op = i.op) ∧
    (∀ b', (s.block? b').isSome → ((s.resolveBranch d).block? b').isSome) := by
  obtain ⟨blk, hb⟩ := isSome_iff_exists.mp hb
  obtain ⟨i, hi, hside⟩ := hd
  obtain ⟨hview, ht, hinst, hblock⟩ := hs.entryPoint hb
  let f : Instruction → Instruction := (·.withSlot d.side (.inst (s.entryPoint d.target).1))
  have hf : ∀ {α : Type} (g : Instruction → α), (∀ i o, g { i with x := o } = g i) →
      (∀ i o, g { i with y := o } = g i) → ∀ i, g (f i) = g i := by
    intro α g hx hy i
    cases hs : d.side <;> simp only [f, hs, Instruction.withSlot, hx, hy]
  have hop := hf (·.op) (fun _ _ => rfl) fun _ _ => rfl
  have ht' : Timelines ((s.entryPoint d.target).2.modifyInst d.inst f) :=
    ht.modifyInst (hf (·.id) (fun _ _ => rfl) fun _ _ => rfl)
      (hf (·.block) (fun _ _ => rfl) fun _ _ => rfl)
      fun i' hi' he => by
        cases (hinst _ _ hi).symm.trans hi'
        have he : i.op = .empty := (hop i).symm.trans he
        simp [Instruction.isTarget, Opcode.isBranch, Opcode.isConditional, he] at hside
  refine ⟨?_, ht'.report _, fun id i₀ hi₀ => ?_, fun b' hb' => ?_⟩
  · refine Eq.trans (view_modifyInst_of_face (fun i _ => hop i) fun i' hi' _ => ?_) hview
    cases (hinst _ _ hi).symm.trans hi'
    exact face_withSlot hside _
  · show ∃ i', ((s.entryPoint d.target).2.modifyInst d.inst f).inst? id = some i' ∧ _
    rw [inst?_modifyInst]
    split
    · rename_i h
      subst h
      rw [hinst _ _ hi₀]
      exact ⟨_, rfl, hop _⟩
    · exact ⟨i₀, hinst _ _ hi₀, rfl⟩
  · show (((s.entryPoint d.target).2.modifyInst d.inst f).block? b').isSome = true
    rw [block?_modifyInst]
    exact hblock b' hb'

/-- What holds before branches are pointed at their targets and stays with each of them holds behind
that. -/
theorem resolveBranches_of {P : State → Prop} (hs : Timelines s) (hd : Deferrals s) (hP : P s)
    (hstep : ∀ {s : State} {d : Deferral} {i : Instruction}, Timelines s →
      (s.block? d.target).isSome → d.target ≠ entryBlock → s.inst? d.inst = some i →
      i.isTarget d.side = true → P s → P (s.resolveBranch d)) :
    P s.resolveBranches ∧ Timelines s.resolveBranches := by
  unfold State.resolveBranches
  unfold Deferrals at hd
  generalize s.deferrals.toList = ds at hd
  induction ds generalizing s with
  | nil => exact ⟨hP, hs⟩
  | cons d ds ih =>
    obtain ⟨hb, hne, i, hi, hside⟩ := hd d (mem_cons_self ..)
    obtain ⟨-, ht, hinst, hblock⟩ := hs.resolveBranch hb ⟨i, hi, hside⟩
    refine ih ht (hstep hs hb hne hi hside hP) fun d' hd' => ?_
    obtain ⟨hb', hne', i', hi', hside'⟩ := hd d' (mem_cons_of_mem _ hd')
    obtain ⟨i'', hi'', hop⟩ := hinst _ _ hi'
    refine ⟨hblock _ hb', hne', i'', hi'', ?_⟩
    rw [← hside']
    simp only [Instruction.isTarget, hop]

/-- Pointing branches at their targets is not seen. -/
theorem resolveBranches (hs : Timelines s) (hd : Deferrals s) :
    s.resolveBranches.view = s.view ∧ Timelines s.resolveBranches :=
  hs.resolveBranches_of (P := fun t => t.view = s.view) hd rfl fun hs hb _ hi hside h =>
    (hs.resolveBranch hb ⟨_, hi, hside⟩).1.trans h

end Timelines

end SingleAssignment.Builder
