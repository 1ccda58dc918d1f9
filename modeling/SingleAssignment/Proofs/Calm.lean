import SingleAssignment.Proofs.Change

/-!
# What changes leave alone

Effects are what a change cannot touch: `acts` lists those of a block, and stays as it is. And where
no instruction stands behind the branch or the end of its block, none does after a change (`Tidy`).
Instructions keep their blocks and their operations, and versions their names (`Persists`).
-/

namespace SingleAssignment.Builder

open Code List State
open Option (getD_some isSome_iff_exists isSome_map map_eq_some_iff map_some)

namespace Puts

variable {s : State} {b : BlockId} {d : State.Draft} {pos : Nat} {r : InstId × State}

open State

theorem inst?_of_ne (h : Puts s b d pos r) {id : InstId} (hne : id ≠ r.1) :
    r.2.inst? id = s.inst? id := by
  obtain ⟨i, -, -, -, -, hi⟩ := h.inst
  rw [hi, if_neg hne]

/-- What is put in has no effect, and nor had what it took the place of. -/
theorem act?_eq (h : Puts s b d pos r) (hop : d.op.hasEffect = false) : r.2.act? = s.act? := by
  obtain ⟨i, hi, -, -, -, hinst⟩ := h.inst
  funext x
  cases x with
  | mark v => rfl
  | inst id =>
    by_cases he : id = r.1
    · have hnew : r.2.act? (.inst r.1) = none := act?_eq_none fun i' hi' => by
        rw [hinst, if_pos rfl] at hi'
        cases hi'
        rw [hi, hop]
      have hold : s.act? (.inst r.1) = none := act?_eq_none fun i₀ hi₀ => by
        rw [(h.old i₀ hi₀).1]
        rfl
      rw [he, hnew, hold]
    · simp only [act?, h.inst?_of_ne he]

/-- Taking out a slot that has no effect leaves the effects as they are. -/
theorem filterMap_filter_ne {f : Slot → Option (InstId × Opcode)} {x : Slot} (hx : f x = none)
    (l : List Slot) : (l.filter (· ≠ x)).filterMap f = l.filterMap f := by
  induction l with
  | nil => rfl
  | cons y l ih =>
    by_cases he : y = x
    · subst he
      rw [filter_cons_of_neg (by simp), filterMap_cons, hx, ih]
    · rw [filter_cons_of_pos (by simpa using he), filterMap_cons, filterMap_cons, ih]

theorem acts_eq (h : Puts s b d pos r) (hop : d.op.hasEffect = false) : r.2.acts = s.acts := by
  funext b'
  have hnone : s.act? (.inst r.1) = none := act?_eq_none fun i₀ hi₀ => by
    rw [(h.old i₀ hi₀).1]
    rfl
  unfold acts
  rw [h.time, h.act?_eq hop]
  split
  · rename_i he
    rw [he, putAt, filterMap_append, filterMap_cons, hnone, filterMap_filter_ne hnone,
      filterMap_filter_ne hnone, ← filterMap_append, take_append_drop]
  · rfl

end Puts

namespace State

variable {s t : State}

/-- What of an instruction decides about effects and ends. -/
def bearing (i : Instruction) : Opcode × Bool :=
  (i.op, i.op.hasEffect && i.active)

theorem isEnd_congr (h : t.act? = s.act?) : t.isEnd = s.isEnd := by
  funext x
  rw [isEnd, isEnd, h]

theorem act?_congr (h : ∀ id, (t.inst? id).map bearing = (s.inst? id).map bearing) :
    t.act? = s.act? := by
  funext x
  cases x with
  | mark v => rfl
  | inst id =>
    have h := congrArg (Option.bind · fun p : Opcode × Bool => if p.2 then some (id, p.1) else none)
      (h id)
    rw [Option.bind_map, Option.bind_map] at h
    exact h

end State

/-- What every change keeps: blocks and edges, effects, and that nothing stands behind the end of a
block. -/
structure Calm (s t : State) : Prop where
  timelines : Timelines t
  size : t.view.size = s.view.size
  graph : t.view.graph = s.view.graph
  act? : t.act? = s.act?
  acts : t.acts = s.acts
  tidy : s.Tidy → t.Tidy
  opened : ∀ {b}, s.Open b → t.Open b

namespace Calm

variable {s t u : State} {b : BlockId} {blk : Block} {d : State.Draft} {pos : Nat}

open State

theorem refl (h : Timelines s) : Calm s s :=
  ⟨h, rfl, rfl, rfl, rfl, id, id⟩

theorem trans (h : Calm s t) (h' : Calm t u) : Calm s u :=
  ⟨h'.timelines, h'.size.trans h.size, h'.graph.trans h.graph, h'.act?.trans h.act?,
    h'.acts.trans h.acts, fun hs => h'.tidy (h.tidy hs), fun hs => h'.opened (h.opened hs)⟩

/-- A slot that ends nothing is put where no end stands before it. -/
theorem tidy_insert {x : Slot} {A B : List Slot} (hs : s.Tidy) (hend : t.isEnd = s.isEnd)
    (htime : ∀ b', t.timelineOf b' = if b' = b then A ++ x :: B else s.timelineOf b')
    (hsub : (A ++ B).Sublist (s.timelineOf b)) (hx : s.isEnd x = false)
    (hA : ∀ y ∈ A, s.isEnd y = true → b = startBlock ∧ x.inst? = none) : t.Tidy := by
  constructor
  · intro b'
    rw [htime, hend]
    split
    · rename_i he
      subst he
      refine pairwise_insert ((hs.last b').sublist hsub) hA fun y _ hend => ?_
      rw [hx] at hend
      cases hend
    · exact hs.last b'
  · intro y hy
    rw [htime] at hy
    rw [hend]
    split at hy
    · rename_i he
      rcases mem_insert_iff.mp hy with rfl | hy
      · exact hx
      · exact hs.entry y (he ▸ hsub.mem hy)
    · exact hs.entry y hy

/-- Only slots that end nothing are new. -/
theorem open_insert {x : Slot} {A B : List Slot} {b' : BlockId} (hs : s.Open b')
    (hend : t.isEnd = s.isEnd) (htime : ∀ b', t.timelineOf b' = if b' = b then A ++
      x :: B else s.timelineOf b')
    (hsub : (A ++ B).Sublist (s.timelineOf b)) (hx : s.isEnd x = false) : t.Open b' := by
  intro y hy
  rw [htime] at hy
  rw [hend]
  split at hy
  · rename_i he
    rcases mem_insert_iff.mp hy with rfl | hy
    · exact hx
    · exact hs y (he ▸ hsub.mem hy)
  · exact hs y hy

theorem of_puts {r : InstId × State} (h : Puts s b d pos r) (ht : Timelines r.2)
    (hsize : r.2.view.size = s.view.size) (hgraph : r.2.view.graph = s.view.graph)
    (hop : d.op.hasEffect = false)
    (hput : s.Tidy → ∀ x ∈ (s.timelineOf b).take pos, s.isEnd x = false) : Calm s r.2 := by
  have hend := isEnd_congr (h.act?_eq hop)
  have hx : s.isEnd (.inst r.1) = false := isEnd_eq_false fun i hi => by
    rw [(h.old i hi).1]
    rfl
  have hsub : (((s.timelineOf b).take pos).filter (· ≠ .inst r.1) ++
      ((s.timelineOf b).drop pos).filter (· ≠ .inst r.1)).Sublist (s.timelineOf b) := by
    rw [← filter_append, take_append_drop]
    exact filter_sublist
  refine ⟨ht, hsize, hgraph, h.act?_eq hop, h.acts_eq hop, fun hs => ?_, fun hs => ?_⟩
  · refine tidy_insert hs hend h.time hsub hx fun y hy hyend => ?_
    rw [hput hs y (mem_filter.mp hy).1] at hyend
    cases hyend
  · exact open_insert hs hend h.time hsub hx

theorem place (hs : Timelines s) (hb : (s.block? b).isSome) (hempty : d.op ≠ .empty)
    (hop : d.op.hasEffect = false)
    (hput : s.Tidy → ∀ x ∈ (s.timelineOf b).take pos, s.isEnd x = false) :
    Calm s (s.place b d pos).2 := by
  obtain ⟨blk, hb⟩ := isSome_iff_exists.mp hb
  obtain ⟨-, hview, ht⟩ : _ ∧ (s.place b d pos).2.view = _ ∧ _ := hs.place hb hempty
  exact of_puts (hs.puts_place hb hempty) ht ((congrArg View.size hview).trans rfl)
    ((congrArg View.graph hview).trans rfl) hop hput

/-- Phis and heads are no ends of a block. -/
theorem isEnd_of_mem_leadingRun {x : Slot} (h : x ∈ (s.timelineOf b).take (s.leadingRun b)) :
    s.isEnd x = false := by
  rw [leadingRun_eq_takeWhile] at h
  have hlead := of_mem_take h
  cases x with
  | mark v => rfl
  | inst id =>
    refine isEnd_eq_false fun i hi => ?_
    simp only [isLead, hi, Option.any_some, beq_iff_eq] at hlead
    rw [hlead]
    rfl

theorem phi (hs : Timelines s) (hb : (s.block? b).isSome) (hop : d.op = .phi) :
    Calm s (s.insertNew b d (s.leadingRun b)).2 := by
  obtain ⟨blk, hb⟩ := isSome_iff_exists.mp hb
  have hempty : d.op ≠ .empty := by
    rw [hop]
    intro he
    cases he
  obtain ⟨-, hview, ht⟩ : _ ∧ (s.insertNew b d (s.leadingRun b)).2.view = _ ∧ _ :=
    hs.insertNew hb hempty
  exact of_puts (hs.puts_insertNew hb) ht ((congrArg View.size hview).trans rfl)
    ((congrArg View.graph hview).trans rfl)
    (by rw [hop]; rfl) fun _ _ hx => isEnd_of_mem_leadingRun hx

theorem mark {ver : Version} (hs : Timelines s) (hb : (s.block? ver.block).isSome)
    (hput : s.Tidy → ∀ x ∈ (s.timelineOf ver.block).take pos, s.isEnd x = true →
      ver.block = startBlock) : Calm s (s.addVersion ver pos).2 := by
  obtain ⟨blk, hb⟩ := isSome_iff_exists.mp hb
  obtain ⟨-, -, hview, ht⟩ : _ ∧ _ ∧ (s.addVersion ver pos).2.view = _ ∧ _ := hs.addVersion hb
  have hinst : ∀ id, (s.addVersion ver pos).2.inst? id = s.inst? id :=
    inst?_modifyBlock { s with versions := s.versions.push ver } ver.block _
  have htime : ∀ b', (s.addVersion ver pos).2.timelineOf b' = if b' = ver.block then
      (s.timelineOf ver.block).take pos ++ .mark s.versions.size ::
        (s.timelineOf ver.block).drop pos
      else s.timelineOf b' := by
    intro b'
    rw [timelineOf_eq hb]
    exact timelineOf_modifyBlock (s := { s with versions := s.versions.push ver }) hb b'
  have hbearing : ∀ id, ((s.addVersion ver pos).2.inst? id).map bearing = (s.inst? id).map
    bearing :=
    fun id => by rw [hinst]
  have hact := act?_congr hbearing
  have hend := isEnd_congr hact
  have hsub : ((s.timelineOf ver.block).take pos ++ (s.timelineOf ver.block).drop pos).Sublist
      (s.timelineOf ver.block) := by
    simp
  refine ⟨ht, (congrArg View.size hview).trans rfl, (congrArg View.graph hview).trans rfl, hact, ?_,
    fun hs => ?_, fun hs => open_insert hs hend htime hsub rfl⟩
  · funext b'
    unfold State.acts
    rw [htime, hact]
    split
    · rename_i he
      rw [he, filterMap_append, filterMap_cons]
      dsimp only [State.act?]
      rw [← filterMap_append, take_append_drop]
    · rfl
  · exact tidy_insert hs hend htime hsub rfl fun y hy hyend => ⟨hput hs y hy hyend, rfl⟩

/-- Timelines and what is known of instructions in them decide about effects and ends. -/
theorem of_same (ht : Timelines t) (hsize : t.view.size = s.view.size)
    (hgraph : t.view.graph = s.view.graph) (htime : ∀ b, t.timelineOf b = s.timelineOf b)
    (hinst : ∀ id, (t.inst? id).map bearing = (s.inst? id).map bearing) : Calm s t := by
  have hact := act?_congr hinst
  have hend := isEnd_congr hact
  refine ⟨ht, hsize, hgraph, hact, ?_, fun hs => ⟨fun b => ?_, ?_⟩, fun hs => ?_⟩
  · funext b
    rw [State.acts, State.acts, htime, hact]
  · rw [htime, hend]
    exact hs.last b
  · intro x hx
    rw [hend]
    exact hs.entry x (htime _ ▸ hx)
  · intro x hx
    rw [hend]
    exact hs x (htime _ ▸ hx)

theorem inst {id : InstId} {f : Instruction → Instruction} (hs : Timelines s)
    (hid : ∀ i, (f i).id = i.id) (hop : ∀ i, (f i).op = i.op) (hblock : ∀ i, (f i).block = i.block)
    (hblank : ∀ i, s.inst? id = some i → i.op = .empty → content (f i) = content i)
    (hact : ∀ i, s.inst? id = some i → i.op.hasEffect = true → (f i).active = i.active) :
    Calm s (s.modifyInst id f) := by
  have ht : Timelines (s.modifyInst id f) := hs.modifyInst hid hblock fun i hi he =>
    ⟨(hop i).symm.trans he, hblank i hi ((hop i).symm.trans he)⟩
  refine of_same ht (size_modifyInst s id f) ?_ (timelineOf_modifyInst s id f) fun id' => ?_
  · funext b
    simp only [view, block?_modifyInst]
  · rw [inst?_modifyInst]
    split
    · rename_i he
      subst he
      cases hi : s.inst? id' with
      | none => rfl
      | some i =>
        simp only [map_some, bearing, hop, Option.some.injEq, Prod.mk.injEq, true_and]
        cases he : i.op.hasEffect with
        | false => rfl
        | true => rw [hact i hi he]
    · rfl

theorem addDep (hs : Timelines s) (id : InstId) (ref : VersionRef) :
    Calm s (s.modifyInst id (·.addDep ref)) :=
  inst hs (fun i => congrArg (·.id) (addDep_eq i _)) (fun i => congrArg (·.op) (addDep_eq i _))
    (fun i => congrArg (·.block) (addDep_eq i _)) (fun i _ _ => by rw [addDep_eq]; rfl)
    fun i _ _ => congrArg (·.active) (addDep_eq i _)

theorem version {v : VersionId} {f : Version → Version} (hs : Timelines s)
    (hvar : ∀ ver, (f ver).var = ver.var) (hblock : ∀ ver, (f ver).block = ver.block) :
    Calm s (s.modifyVersion v f) :=
  of_same (hs.modifyVersion hvar hblock) rfl rfl (fun _ => rfl) fun _ => rfl

theorem books (hs : Timelines s) (hinsts : t.insts = s.insts) (hversions : t.versions = s.versions)
    (hblocks : ∀ b, (t.block? b).map Block.bare = (s.block? b).map Block.bare)
    (hsize : t.blocks.size = s.blocks.size) : Calm s t := by
  have hmap : ∀ {α : Type} (g : Block → α), (∀ blk, g blk.bare = g blk) →
      ∀ b, (t.block? b).map g = (s.block? b).map g := by
    intro α g hg b
    have h := congrArg (Option.map g) (hblocks b)
    rw [Option.map_map, Option.map_map] at h
    rw [show g = g ∘ Block.bare from funext fun blk => (hg blk).symm]
    exact h
  have hinst : ∀ id, t.inst? id = s.inst? id := fun id => by rw [inst?, inst?, hinsts]
  have htime : ∀ b, t.timelineOf b = s.timelineOf b := fun b => by
    rw [timelineOf, timelineOf, hmap (·.timeline) fun _ => rfl]
  have ht : Timelines t := by
    refine hs.congr (fun id => by rw [hinst]) (fun id i hi => hs.blank ((hinst id).symm.trans hi))
      htime (fun b => congrArg (Option.getD · []) (hmap (·.table) (fun _ => rfl) b))
      (fun v => by rw [hversions]) fun b blk p hb hp => .inr ?_
    have h := hmap (·.placeholder) (fun _ => rfl) b
    rw [hb] at h
    obtain ⟨blk₀, hb₀, hp₀⟩ := map_eq_some_iff.mp h.symm
    exact ⟨blk₀, hb₀, hp₀.trans hp⟩
  refine of_same ht hsize ?_ htime fun id => by rw [hinst]
  funext b
  exact hmap Block.shape (fun _ => rfl) b

theorem joined (hs : Timelines s) (j : BlockId) (name : String) : Calm s (s.addJoinVar j name) := by
  let f : Block → Block := fun blk => { blk with joinVars := blk.joinVars.insert name }
  have hmap := fun {α : Type} (g : Block → α) (hg : ∀ blk, g (f blk) = g blk) b =>
    map_block?_modifyBlock (s := s) (b := j) g hg b
  have ht : Timelines (s.addJoinVar j name) := hs.modifyBlock (fun _ => rfl) (fun _ => rfl)
    fun _ _ h => .inr h
  refine of_same ht (size_modifyBlock s j f) (funext (hmap Block.shape fun _ => rfl))
    (fun b => ?_) fun id => ?_
  · exact congrArg (Option.getD · []) (hmap (·.timeline) (fun _ => rfl) b)
  · rw [addJoinVar, inst?_modifyBlock]

theorem record (hs : Timelines s) (b : BlockId) (e : Entry) : Calm s (s.record b e) := by
  refine books hs ?_ (versions_modifyBlock s b _)
    (map_block?_modifyBlock (f := (·.record e)) Block.bare fun _ => rfl) (size_modifyBlock s b _)
  unfold State.record modifyBlock
  split <;> rfl

theorem isSome_block (h : Calm s t) (hb : (s.block? b).isSome) : (t.block? b).isSome := by
  have := congrFun h.graph b
  simp only [view] at this
  rw [← isSome_map (f := Block.shape), this, isSome_map]
  exact hb

/-- A constant is there already, or is placed at the end of its block. -/
theorem const_cases (s : State) (n : Int64) : (s.const n).2 = s ∨
    (s.const n).2 = (s.place entryBlock { op := .const, x := .literal n }
      (s.endOf entryBlock)).2.record entryBlock { op := .const, id := (s.const n).1.id,
                                                  x := .literal n, y := .none } := by
  unfold State.const
  dsimp only
  split
  · exact .inl rfl
  · exact .inr rfl

theorem const (hs : Timelines s) (hentry : (s.block? entryBlock).isSome) (n : Int64) :
    Calm s (s.const n).2 := by
  rcases const_cases s n with he | he
  · rw [he]
    exact .refl hs
  · rw [he]
    have hplace : Calm s (s.place entryBlock { op := .const, x := .literal n }
      (s.endOf entryBlock)).2 :=
      place hs hentry (by intro he; cases he) rfl fun ht x hx => ht.entry x (mem_of_mem_take hx)
    exact hplace.trans (record hplace.timelines _ _)

theorem notedZero (hs : Timelines s) (hentry : (s.block? entryBlock).isSome) (name : String) :
    Calm s (s.notedZero name) :=
  (const hs hentry 0).trans (addDep (const hs hentry 0).timelines _ _)

theorem zero (hs : Timelines s) (hentry : (s.block? entryBlock).isSome)
    (hstart : (s.block? startBlock).isSome) (name : String) (cause : Option ZeroCause) :
    Calm s (s.addZero b name cause).2 := by
  have hnoted := notedZero hs hentry name
  have hmark : Calm (s.notedZero name) ((s.notedZero name).addVersion
      { var := name, number := 0, inst := (s.const 0).1.id, block := startBlock,
        src := (s.const 0).1.src }
      ((s.notedZero name).endOf startBlock)).2 :=
    mark hnoted.timelines (hnoted.isSome_block hstart) fun _ _ _ _ => rfl
  exact (hnoted.trans hmark).trans (books hmark.timelines rfl rfl (fun _ => rfl) rfl)

end Calm

variable {F : BlockId} {W : Want → Prop} {s t : State}

/-- A change leaves the effects alone. -/
theorem Change.calm (h : Change F W s t) (hs : Timelines s) : Calm s t := by
  cases h with
  | place hb hempty hop hF hput => exact .place hs hb hempty hop hput
  | phi hb hop hF => exact .phi hs hb hop
  | mark hb hF hnumber hwant hissued hput =>
    refine .mark hs hb fun ht x hx hend => ?_
    rw [hput ht x hx] at hend
    cases hend
  | zero hentry hstart hwant hroot hnone hconst => exact .zero hs hentry hstart _ _
  | inst hid hop hblock hblank hact hF hdeps => exact .inst hs hid hop hblock hblank hact
  | version href hissued hF =>
    exact .version hs (fun ver => congrArg (·.var) (href ver)) fun ver => congrArg
      (·.block) (href ver)
  | joined hwant => exact .joined hs _ _
  | touched => exact .books hs rfl rfl (fun _ => rfl) rfl
  | books hinsts hversions hblocks hsize hwarned hcontexts =>
    exact .books hs hinsts hversions hblocks hsize

theorem Changes.calm (h : Changes F W s t) (hs : Timelines s) : Calm s t := by
  induction h with
  | refl => exact .refl hs
  | tail _ hstep ih => exact ih.trans (hstep.calm ih.timelines)

/-- An instruction keeps its block, what it records, and its operation unless it is an empty one; a
version keeps its name, its number and its block. -/
structure Persists (s t : State) : Prop where
  inst : ∀ {id i}, s.inst? id = some i → ∃ i', t.inst? id = some i' ∧ i'.block = i.block ∧
    (i.op ≠ .empty → i'.op = i.op)
  deps : ∀ {id i i'}, s.inst? id = some i → t.inst? id = some i' → i.deps ⊆ i'.deps
  version : ∀ {v : VersionId} {ver}, s.versions[v]? = some ver → ∃ ver',
    t.versions[v]? = some ver' ∧ ver'.ref = ver.ref

namespace Persists

open State

theorem subset_of_eq {id : InstId} {i i' : Instruction} (h : t.inst? id = s.inst? id)
    (hi : s.inst? id = some i) (hi' : t.inst? id = some i') : i.deps ⊆ i'.deps := by
  cases hi.symm.trans (h.symm.trans hi')
  exact List.Subset.refl _

theorem of_eq (h : ∀ id, t.inst? id = s.inst? id) (hv : t.versions = s.versions) : Persists s t :=
  ⟨fun {id i} hi => ⟨i, (h id).trans hi, rfl, fun _ => rfl⟩, fun {id _ _} => subset_of_eq (h id),
    fun {_ ver} hver => ⟨ver, hv ▸ hver, rfl⟩⟩

theorem trans {u : State} (h : Persists s t) (h' : Persists t u) : Persists s u := by
  refine ⟨fun {id i} hi => ?_, fun {id i i'} hi hi' => ?_, fun {v ver} hv => ?_⟩
  · obtain ⟨i₁, hi₁, hb₁, hop₁⟩ := h.inst hi
    obtain ⟨i₂, hi₂, hb₂, hop₂⟩ := h'.inst hi₁
    refine ⟨i₂, hi₂, hb₂.trans hb₁, fun hne => ?_⟩
    rw [hop₂ (by rw [hop₁ hne]; exact hne), hop₁ hne]
  · obtain ⟨i₁, hi₁, -⟩ := h.inst hi
    exact List.Subset.trans (h.deps hi hi₁) (h'.deps hi₁ hi')
  · obtain ⟨ver₁, hv₁, href₁⟩ := h.version hv
    obtain ⟨ver₂, hv₂, href₂⟩ := h'.version hv₁
    exact ⟨ver₂, hv₂, href₂.trans href₁⟩

theorem of_puts {b : BlockId} {d : State.Draft} {pos : Nat} {r : InstId × State}
    (h : Puts s b d pos r) : Persists s r.2 := by
  refine ⟨fun {id i} hi => ?_, fun {id i i'} hi hi' => ?_,
    fun {v ver} hv => ⟨ver, h.versions ▸ hv, rfl⟩⟩
  · obtain ⟨i', hop, -, hb, -, hinst⟩ := h.inst
    by_cases he : id = r.1
    · subst he
      obtain ⟨hempty, hib⟩ := h.old i hi
      exact ⟨i', by rw [hinst, if_pos rfl], hb.trans hib.symm, fun hne => absurd hempty hne⟩
    · exact ⟨i, by rw [h.inst?_of_ne he, hi], rfl, fun _ => rfl⟩
  · by_cases he : id = r.1
    · subst he
      rw [h.deps i' hi', hi]
      exact List.Subset.refl _
    · exact subset_of_eq (h.inst?_of_ne he) hi hi'

theorem const (hs : Timelines s) (h : (s.block? entryBlock).isSome) (n : Int64) :
    Persists s (s.const n).2 := by
  obtain ⟨blk, hb⟩ := isSome_iff_exists.mp h
  rcases Calm.const_cases s n with he | he
  · rw [he]
    exact of_eq (fun _ => rfl) rfl
  · rw [he]
    have hputs : Puts s entryBlock _ _ (s.place entryBlock { op := .const, x := .literal n }
      (s.endOf entryBlock)) :=
      hs.puts_place hb (by intro he; cases he)
    exact (of_puts hputs).trans (of_eq (inst?_modifyBlock _ entryBlock _)
      (versions_modifyBlock _ entryBlock _))

theorem modifyInst {id : InstId} {f : Instruction → Instruction} (hop : ∀ i, (f i).op = i.op)
    (hblock : ∀ i, (f i).block = i.block) (hdeps : ∀ i, s.inst? id = some i → i.deps ⊆ (f i).deps) :
    Persists s (s.modifyInst id f) := by
  refine ⟨fun {id' i} hi => ?_, fun {id' i i'} hi hi' => ?_,
    fun {v ver} hv => ⟨ver, by rw [versions_modifyInst, hv], rfl⟩⟩
  · by_cases he : id' = id
    · exact ⟨f i, by rw [inst?_modifyInst, if_pos he, ← he, hi]; rfl, hblock i, fun _ => hop i⟩
    · exact ⟨i, by rw [inst?_modifyInst, if_neg he, hi], rfl, fun _ => rfl⟩
  · rw [inst?_modifyInst] at hi'
    split at hi'
    · rename_i he
      subst he
      rw [hi] at hi'
      cases hi'
      exact hdeps i hi
    · exact subset_of_eq rfl hi hi'

theorem notedZero (hs : Timelines s) (h : (s.block? entryBlock).isSome) (name : String) :
    Persists s (s.notedZero name) :=
  (const hs h 0).trans (modifyInst (fun i => congrArg (·.op) (addDep_eq i _))
    (fun i => congrArg (·.block) (addDep_eq i _)) fun _ _ _ href => mem_deps_addDep.mpr (.inl href))

theorem mark (ver : Version) (pos : Nat) : Persists s (s.addVersion ver pos).2 := by
  have hinst : ∀ id, (s.addVersion ver pos).2.inst? id = s.inst? id :=
    inst?_modifyBlock { s with versions := s.versions.push ver } ver.block _
  refine ⟨fun {id i} hi => ⟨i, (hinst id).trans hi, rfl, fun _ => rfl⟩,
    fun {id _ _} => subset_of_eq (hinst id), fun {v ver'} hv => ⟨ver', ?_, rfl⟩⟩
  · have hlt : v < s.versions.size := (Array.getElem?_eq_some_iff.mp hv).1
    rw [addVersion, versions_modifyBlock, Array.getElem?_push, if_neg (Nat.ne_of_lt hlt)]
    exact hv

theorem modifyVersion {v : VersionId} {f : Version → Version}
    (href : ∀ ver, (f ver).ref = ver.ref) : Persists s (s.modifyVersion v f) := by
  refine ⟨fun {_ i} hi => ⟨i, hi, rfl, fun _ => rfl⟩, fun {_ _ _} => subset_of_eq rfl,
    fun {v' ver} hv => ?_⟩
  rw [State.modifyVersion, Array.getElem?_modify]
  split
  · rw [hv]
    exact ⟨f ver, rfl, href ver⟩
  · exact ⟨ver, hv, rfl⟩

end Persists

theorem Change.persists (h : Change F W s t) (hs : Timelines s) : Persists s t := by
  cases h with
  | place hb hempty hop hF hput =>
    obtain ⟨blk, hb⟩ := isSome_iff_exists.mp hb
    exact .of_puts (hs.puts_place hb hempty)
  | phi hb hop hF =>
    obtain ⟨blk, hb⟩ := isSome_iff_exists.mp hb
    exact .of_puts (hs.puts_insertNew hb)
  | mark hb hF hnumber hwant hissued hput => exact .mark _ _
  | zero hentry hstart hwant hroot hnone hconst =>
    exact ((Persists.notedZero hs hentry _).trans (.mark _ _)).trans (.of_eq (fun _ => rfl) rfl)
  | inst hid hop hblock hblank hact hF hdeps =>
    exact .modifyInst hop hblock fun i hi => (hdeps i hi).1
  | version href hissued hF => exact .modifyVersion href
  | joined hwant => exact .of_eq (inst?_modifyBlock _ _ _) (versions_modifyBlock _ _ _)
  | touched => exact .of_eq (fun _ => rfl) rfl
  | books hinsts hversions hblocks hsize hwarned hcontexts =>
    exact .of_eq (fun id => by rw [State.inst?, State.inst?, hinsts]) hversions

theorem Changes.persists (h : Changes F W s t) (hs : Timelines s) : Persists s t := by
  induction h with
  | refl => exact .of_eq (fun _ => rfl) rfl
  | tail hsteps hstep ih => exact ih.trans (hstep.persists (Changes.calm hsteps hs).timelines)

namespace Persists

theorem issued {id : InstId} (h : Persists s t) (hid : s.Issued id) : t.Issued id :=
  hid.mono fun hi => (h.inst hi).imp fun _ hi' => hi'.1

theorem issuedValue {x : Value} (h : Persists s t) (hx : s.IssuedValue x) : t.IssuedValue x :=
  hx.mono fun hi => (h.inst hi).imp fun _ hi' => hi'.1

theorem allIssued (h : Persists s t) (hs : s.AllIssued) (hversions : t.versions = s.versions) :
    t.AllIssued :=
  hs.mono hversions fun hi => (h.inst hi).imp fun _ hi' => hi'.1

end Persists

theorem State.HoldsConst.issuedValue {id : InstId} {n : Int64} (h : s.HoldsConst id n) :
    s.IssuedValue ⟨id, .immediate n id⟩ := by
  obtain ⟨i, hi, -⟩ := h
  exact ⟨issued_of_inst? hi, fun _ hmem => mem_singleton.mp hmem ▸ issued_of_inst? hi⟩

theorem State.src_const (s : State) (n : Int64) : (s.const n).1.src = .immediate n
    (s.const n).1.id := by
  unfold State.const
  dsimp only
  split <;> rfl

theorem State.versions_const (hs : Timelines s) (hentry : (s.block? entryBlock).isSome)
    (n : Int64) : (s.const n).2.versions = s.versions := by
  obtain ⟨blk, hb⟩ := isSome_iff_exists.mp hentry
  rcases Calm.const_cases s n with he | he
  · rw [he]
  · have hputs : Puts s entryBlock _ _ (s.place entryBlock { op := .const, x := .literal n }
      (s.endOf entryBlock)) :=
      hs.puts_place hb (by intro he; cases he)
    rw [he, State.record, versions_modifyBlock, hputs.versions]

/-- A new version that names issued instructions only. -/
theorem State.AllIssued.push {ver : Version} {pos : Nat} (hs : s.AllIssued)
    (hver : s.IssuedValue ⟨ver.inst, ver.src⟩) : (s.addVersion ver pos).2.AllIssued := by
  intro v ver' hver'
  have hsame : ∀ {id i}, s.inst? id = some i → ∃ i', (s.addVersion ver pos).2.inst? id = some i' :=
    fun {_ i} hi => ⟨i, (inst?_addVersion ..).trans hi⟩
  rw [versions_addVersion] at hver'
  split at hver'
  · cases hver'
    exact hver.mono hsame
  · exact (hs v ver' hver').mono hsame

/-- Versions name issued instructions only. -/
theorem Change.allIssued (h : Change F W s t) (hs : Timelines s) (ha : s.AllIssued) :
    t.AllIssued := by
  have hp := h.persists hs
  cases h with
  | place hb hempty hop hF hput =>
    obtain ⟨blk, hb⟩ := isSome_iff_exists.mp hb
    exact hp.allIssued ha (hs.puts_place hb hempty).versions
  | phi hb hop hF =>
    obtain ⟨blk, hb⟩ := isSome_iff_exists.mp hb
    exact hp.allIssued ha (hs.puts_insertNew hb).versions
  | mark hb hF hnumber hwant hissued hput => exact ha.push (hissued ha)
  | @zero b name cause hentry hstart hwant hroot hnone hconst =>
    have hold := (Persists.notedZero hs hentry name).allIssued ha
      ((versions_modifyInst ..).trans (versions_const hs hentry 0))
    have hval : (s.notedZero name).IssuedValue ⟨(s.const 0).1.id, (s.const 0).1.src⟩ := by
      rw [src_const]
      exact (hconst.notedZero name).issuedValue
    have hpush : ((s.notedZero name).addVersion
        { var := name, number := 0, inst := (s.const 0).1.id, block := startBlock,
          src := (s.const 0).1.src }
        ((s.notedZero name).endOf startBlock)).2.AllIssued := hold.push hval
    exact hpush.mono rfl fun {_ i} hi => ⟨i, hi⟩
  | inst hid hop hblock hblank hact hF hdeps => exact hp.allIssued ha (versions_modifyInst ..)
  | @version v f href hissued hF =>
    intro v' ver' hver'
    rw [State.modifyVersion, Array.getElem?_modify] at hver'
    split at hver'
    · rename_i he
      subst he
      obtain ⟨ver, hver, rfl⟩ := map_eq_some_iff.mp hver'
      exact hp.issuedValue (hissued ha ver hver)
    · exact hp.issuedValue (ha v' ver' hver')
  | joined hwant => exact hp.allIssued ha (versions_modifyBlock ..)
  | touched => exact hp.allIssued ha rfl
  | books hinsts hversions hblocks hsize hwarned hcontexts => exact hp.allIssued ha hversions

theorem Changes.allIssued (h : Changes F W s t) (hs : Timelines s) (ha : s.AllIssued) :
    t.AllIssued := by
  induction h with
  | refl => exact ha
  | tail hsteps hstep ih => exact hstep.allIssued (Changes.calm hsteps hs).timelines ih

/-- The parents of a join are part of the graph. -/
theorem State.joinParents_congr (h : t.view.graph = s.view.graph) (j : BlockId) :
    t.joinParents j = s.joinParents j := by
  have h := congrArg (fun o : Option Block => ((o.map (·.parents)).getD [])) (congrFun h j)
  simp only [view, Option.map_map] at h
  unfold joinParents
  rw [show ((t.block? j).map (·.parents)).getD [] = ((s.block? j).map (·.parents)).getD [] from h]

theorem State.joinVars_const (hs : Timelines s) (hentry : (s.block? entryBlock).isSome)
    (n : Int64) : (s.const n).2.view.joinVars = s.view.joinVars := by
  obtain ⟨blk, hb⟩ := isSome_iff_exists.mp hentry
  rcases Calm.const_cases s n with he | he
  · rw [he]
  · obtain ⟨-, hview, -⟩ : _ ∧ (s.place entryBlock { op := .const, x := .literal n }
      (s.endOf entryBlock)).2.view = _ ∧ _ := hs.place hb (by intro he; cases he)
    rw [he]
    refine Eq.trans ?_ ((congrArg View.joinVars hview).trans rfl)
    funext j
    exact congrArg (Option.getD · []) (map_block?_modifyBlock (f := (·.record _))
      (·.joinVars.toList) (fun _ => rfl) j)

theorem State.mem_joinVars_addJoinVar {j j' : BlockId} {name name' : String}
    (h : name ∈ (s.addJoinVar j' name').view.joinVars j) :
    name ∈ s.view.joinVars j ∨ j = j' ∧ name = name' := by
  by_cases he : j = j'
  · subst he
    cases hb : s.block? j with
    | none => simp [view, addJoinVar, hb] at h
    | some blk =>
      simp only [view, addJoinVar, block?_modifyBlock, if_pos, hb, map_some, getD_some] at h ⊢
      exact (Names.mem_insert.mp h).symm.imp_right fun hn => ⟨trivial, hn⟩
  · refine .inl ?_
    simpa [view, addJoinVar, he] using h

/-- A variable that is merged at a join was before, or was asked for. -/
theorem Change.mem_joinVars (h : Change F W s t) (hs : Timelines s) {j : BlockId} {name : String}
    (hname : name ∈ t.view.joinVars j) : name ∈ s.view.joinVars j ∨ W (.join j name) := by
  have hsame : t.view.joinVars = s.view.joinVars → name ∈ s.view.joinVars j ∨ W (.join j name) :=
    fun he => .inl (he ▸ hname)
  cases h with
  | place hb hempty hop hF hput =>
    obtain ⟨blk, hb⟩ := isSome_iff_exists.mp hb
    exact hsame ((congrArg View.joinVars (hs.place hb hempty).2.1).trans rfl)
  | @phi _ d hb hop hF =>
    obtain ⟨blk, hb⟩ := isSome_iff_exists.mp hb
    have hempty : d.op ≠ .empty := by
      rw [hop]
      intro he
      cases he
    exact hsame ((congrArg View.joinVars (hs.insertNew hb hempty).2.1).trans rfl)
  | mark hb hF hnumber hwant hissued hput =>
    obtain ⟨blk, hb⟩ := isSome_iff_exists.mp hb
    exact hsame ((congrArg View.joinVars (hs.addVersion hb).2.2.1).trans rfl)
  | @zero _ name' _ hentry hstart =>
    have hnoted := Calm.notedZero hs hentry name'
    obtain ⟨blk, hb⟩ := isSome_iff_exists.mp (hnoted.isSome_block hstart)
    refine hsame (((congrArg View.joinVars (hnoted.timelines.addVersion hb).2.2.1).trans
      (funext fun j => ?_)).trans (joinVars_const hs hentry 0))
    exact congrArg (fun o : Option Block => (o.map (·.joinVars.toList)).getD [])
      (block?_modifyInst ..)
  | inst hid hop hblock hblank hact hF hdeps =>
    refine hsame (funext fun j => ?_)
    simp only [State.view, block?_modifyInst]
  | version => exact hsame rfl
  | joined hwant =>
    rcases mem_joinVars_addJoinVar hname with hold | ⟨rfl, rfl⟩
    · exact .inl hold
    · exact .inr hwant
  | touched => exact hsame rfl
  | books hinsts hversions hblocks hsize hwarned hcontexts =>
    refine hsame (funext fun j => ?_)
    have hj := congrArg (fun o : Option Block => ((o.map (·.joinVars.toList)).getD [])) (hblocks j)
    rw [Option.map_map, Option.map_map] at hj
    exact hj

theorem Changes.mem_joinVars (h : Changes F W s t) (hs : Timelines s) {j : BlockId} {name : String}
    (hname : name ∈ t.view.joinVars j) : name ∈ s.view.joinVars j ∨ W (.join j name) := by
  induction h with
  | refl => exact .inl hname
  | tail hsteps hstep ih =>
    rcases hstep.mem_joinVars (Changes.calm hsteps hs).timelines hname with hold | hwant
    · exact ih hold
    · exact .inr hwant

/-- The variables that are merged at joins from `F` on may be asked for there, also without a
warning, and no others are merged. -/
structure Wanted (F : BlockId) (W : Want → Prop) (s : State) : Prop where
  root : ∀ j, ∀ p ∈ [(s.joinParents j).1, (s.joinParents j).2], s.Rooted p
  zero : ∀ j, ∀ name ∈ s.view.joinVars j, F ≤ j → ∀ p ∈ [(s.joinParents j).1, (s.joinParents j).2],
    p ≠ entryBlock → W (.zero none p name)
  mark : ∀ j, ∀ name ∈ s.view.joinVars j, F ≤ j → W (.mark j name)
  join : ∀ j name, ¬ W (.join j name)

theorem Changes.wanted (h : Changes F W s t) (hs : Timelines s) (hW : Wanted F W s) :
    Wanted F W t := by
  have hvars : ∀ {j name}, name ∈ t.view.joinVars j → name ∈ s.view.joinVars j := fun hname =>
    (Changes.mem_joinVars h hs hname).resolve_right (hW.join _ _)
  have hg := (Changes.calm h hs).graph
  refine ⟨fun j p hp => ?_, fun j name hname hF => ?_, fun j name hname hF => hW.mark j name
    (hvars hname) hF, hW.join⟩
  · rw [joinParents_congr hg] at hp
    exact (hW.root j p hp).congr hg
  · rw [joinParents_congr hg]
    exact hW.zero j name (hvars hname) hF

/-! ## Instructions and where they come from -/

/-- Where an instruction comes from that is there behind a step of the blocks from `F` on: it was
there, and in front of these blocks nothing about it is different that values depend on; or it was
put into its block, where an empty one may have held its place. -/
inductive Stems (F : BlockId) (s : State) (id : InstId) (i' : Instruction) : Prop
  | old {i : Instruction} (hi : s.inst? id = some i) (hblock : i'.block = i.block)
      (hop : i'.op = i.op) (hsame : F ≤ i.block ∨ face i' = face i) (hdeps : Records F i i'.deps)
  | put (hb : (s.block? i'.block).isSome) (hold : ∀ i, s.inst? id = some i → i.op = .empty ∧
        i.block = i'.block)
      (hop : i'.block = entryBlock → i'.op ≠ .empty) (hactive : i'.active = true)
      (hdeps : ∀ ref ∈ i'.deps, (∃ i, s.inst? id = some i ∧ ref ∈ i.deps) ∨ i'.block ≤ ref.block)

section

variable {id : InstId} {i i' : Instruction}

theorem Stems.of_eq (h : t.inst? id = s.inst? id) (hi' : t.inst? id = some i') : Stems F s id i' :=
  .old (h ▸ hi') rfl rfl (.inr rfl) (.same F i')

theorem Puts.stems {b : BlockId} {d : State.Draft} {pos : Nat} {r : InstId × State}
    (h : Puts s b d pos r) (hb : (s.block? b).isSome) (hop : b = entryBlock → d.op ≠ .empty)
    (hi' : r.2.inst? id = some i') : Stems F s id i' := by
  obtain ⟨i, hd, -, hblock, hactive, hinst⟩ := h.inst
  by_cases he : id = r.1
  · subst he
    have hdeps := h.deps i' hi'
    rw [hinst, if_pos rfl] at hi'
    cases hi'
    refine .put (hblock ▸ hb) (fun i₀ hi₀ => ⟨(h.old i₀ hi₀).1, (h.old i₀ hi₀).2.trans hblock.symm⟩)
      (fun hentry => hd ▸ hop (hblock.symm.trans hentry)) hactive fun ref href => .inl ?_
    rw [hdeps] at href
    cases hi : s.inst? r.1 with
    | none => simp [hi] at href
    | some i₀ => exact ⟨i₀, rfl, by simpa [hi] using href⟩
  · exact .of_eq (h.inst?_of_ne he) hi'

/-- An instruction may come to record a version of its block or of a later one. -/
theorem Stems.addDep {ref : VersionRef} (h : Stems F s id i) (hle : i.block ≤ ref.block) :
    Stems F s id (i.addDep ref) := by
  have hmem : ∀ {ref'}, ref' ∈ (i.addDep ref).deps → ref' ∈ i.deps ∨ i.block ≤ ref'.block :=
    fun {ref'} href =>
    (mem_deps_addDep.mp href).imp_right fun he : ref' = ref => he ▸ hle
  rw [addDep_eq]
  cases h with
  | old hi hblock hop hsame hdeps =>
    refine .old hi hblock hop hsame ⟨fun _ href => mem_deps_addDep.mpr (.inl (hdeps.1 href)),
      fun ref' href => ?_⟩
    exact (hmem href).elim (hdeps.2 ref') fun hle' => .inr (.inr (hblock ▸ hle'))
  | put hb hold hop hactive hdeps =>
    exact .put hb hold hop hactive fun ref' href => (hmem href).elim (hdeps ref') .inr

theorem Change.stems (h : Change F W s t) (hs : Timelines s) (hi' : t.inst? id = some i') :
    Stems F s id i' := by
  cases h with
  | place hb hempty hop hF hput =>
    obtain ⟨blk, hblk⟩ := isSome_iff_exists.mp hb
    exact (hs.puts_place hblk hempty).stems hb (fun _ => hempty) hi'
  | phi hb hop hF =>
    obtain ⟨blk, hblk⟩ := isSome_iff_exists.mp hb
    exact (hs.puts_insertNew hblk).stems hb (fun _ he => by rw [hop] at he; cases he) hi'
  | mark => exact .of_eq (inst?_addVersion ..) hi'
  | zero hentry hstart hwant hroot hnone hconst =>
    obtain ⟨blk, hblk⟩ := isSome_iff_exists.mp hentry
    have hstems : ∀ {i}, (s.const 0).2.inst? id = some i → Stems F s id i := by
      intro i hi
      rcases Calm.const_cases s 0 with he | he
      · exact .of_eq (congrArg (·.inst? id) he) hi
      · rw [he] at hi
        exact (hs.puts_place (d := { op := .const, x := .literal 0 }) hblk
          (by intro he; cases he)).stems hentry
          (by intro _ he; cases he) ((inst?_modifyBlock ..).symm.trans hi)
    rw [inst?_addZero, State.notedZero, inst?_modifyInst] at hi'
    split at hi'
    · rename_i he
      subst he
      obtain ⟨i, hi, rfl⟩ := map_eq_some_iff.mp hi'
      obtain ⟨z, hz, -, -, hblock, -⟩ := hconst
      cases hz.symm.trans hi
      exact (hstems hi).addDep (hblock ▸ (by decide : entryBlock ≤ startBlock))
    · exact hstems hi'
  | @inst id' f hid hop hblock hblank hact hF hdeps =>
    rw [inst?_modifyInst] at hi'
    split at hi'
    · rename_i he
      subst he
      obtain ⟨i, hi, rfl⟩ := map_eq_some_iff.mp hi'
      exact .old hi (hblock i) (hop i) ((hF i hi).imp_right fun hsame => by rw [hsame]; rfl)
        (hdeps i hi)
    · exact .of_eq rfl hi'
  | version => exact .of_eq rfl hi'
  | joined => exact .of_eq (inst?_modifyBlock ..) hi'
  | touched => exact .of_eq rfl hi'
  | books hinsts => exact .of_eq (by rw [State.inst?, State.inst?, hinsts]) hi'

/-- What is put in records nothing new. -/
theorem State.Secluded.of_stems (hsec : s.Secluded F)
    (h : ∀ {id i'}, t.inst? id = some i' → Stems F s id i') : t.Secluded F := by
  intro id i' hi' hF ref href
  cases h hi' with
  | @old i hi hblock _ _ hdeps =>
    have hle : F ≤ i.block := hblock ▸ hF
    exact (hdeps.2 ref href).elim (hsec id i hi hle ref) fun h => h.elim (fun hin => hin)
      (Int.le_trans hle)
  | put _ hold _ _ hdeps =>
    rcases hdeps ref href with ⟨i, hi, href⟩ | hle
    · exact hsec id i hi ((hold i hi).2 ▸ hF) ref href
    · exact Int.le_trans hF hle

theorem Changes.secluded (h : Changes F W s t) (hs : Timelines s) (hsec : s.Secluded F) :
    t.Secluded F := by
  induction h with
  | refl => exact hsec
  | tail hsteps hstep ih =>
    exact ih.of_stems fun hi' => hstep.stems (Changes.calm hsteps hs).timelines hi'

end

end SingleAssignment.Builder
