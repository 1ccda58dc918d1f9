import SingleAssignment.Proofs.Outcome
import SingleAssignment.Proofs.Repairing

/-!
# Calls of a builder

A builder is used by calling it: `Call` lists its calls, `Call.run` gives the state after one,
whether it came to its end or failed, and `State.after` the state after some. Every one of these
states is well-formed (`wellFormed_after`), and a call that fails leaves the state as it is: each
operation makes all its checks before its first change (`Safe`). Only closing a loop makes some of
them later.
-/

namespace SingleAssignment

open List
open Option (bind_eq_some_iff isSome_iff_exists map_eq_some_iff map_some)

namespace Builder

open Code

/-! ## The calls -/

/-- A call of a builder. Questions that only read the state, such as which branches wait, are
functions of it and no calls. -/
inductive Call where
  | const (n : Int64)
  | emit (b : BlockId) (op : Opcode) (x y : Value)
  | assign (b : BlockId) (name : String) (v : Value)
  | lookup (b : BlockId) (name : String)
  | latestVersion (b : BlockId) (name : String)
  | numberedVersion (b : BlockId) (name : String) (number : Int)
  | newBlock (d : BlockDraft)
  | link (parent child : BlockId)
  | dominators (b : BlockId)
  | openJoin (kind : JoinKind)
  | reconcileIf (join : BlockId)
  | placePhi (join : BlockId) (name : String) (x y : Value)
  | reconcileLoop (header bottom : BlockId) (exitBranch : InstId)
  | deferBranch (id : InstId) (slot : Int) (target : BlockId)
  | resolveBranches
  | declareArray (name : String) (dims : List Int64)
  | array (name : String)
  | loadElement (b : BlockId) (name : String) (indices : List Value)
  | storeElement (b : BlockId) (name : String) (indices : List Value) (v : Value)
  | block (b : BlockId)
  | instruction (id : InstId)
  | finish

namespace Call

/-- What a call does; its answer is left out. -/
def act : Call → Build PUnit
  | const n => discard (Builder.const n)
  | emit b op x y => discard (Builder.emit b op x y)
  | assign b name v => discard (Builder.assign b name v)
  | lookup b name => discard (Builder.lookup b name)
  | latestVersion b name => discard (Builder.latestVersion b name)
  | numberedVersion b name number => discard (Builder.numberedVersion b name number)
  | newBlock d => discard (Builder.newBlock d)
  | link parent child => Builder.link parent child
  | dominators b => discard (Builder.dominators b)
  | openJoin kind => Builder.openJoin kind
  | reconcileIf join => Builder.reconcileIf join
  | placePhi join name x y => discard (Builder.placePhi join name x y)
  | reconcileLoop header bottom exitBranch =>
    discard (Builder.reconcileLoop header bottom exitBranch)
  | deferBranch id slot target => Builder.deferBranch id slot target
  | resolveBranches => Builder.resolveBranches
  | declareArray name dims => discard (Builder.declareArray name dims)
  | array name => discard (Builder.array name)
  | loadElement b name indices => discard (Builder.loadElement b name indices)
  | storeElement b name indices v => Builder.storeElement b name indices v
  | block b => discard (Build.block b)
  | instruction id => discard (Build.instruction id)
  | finish => discard Builder.finish

/-- The state after a call, also after one that failed. -/
def run (c : Call) (s : State) : State :=
  match c.act s with
  | .ok _ t => t
  | .error _ t => t

/-- Whether a block that the call makes has the first block with code among its dominators. -/
def IsBelow : Call → Prop
  | newBlock d => startBlock ∈ d.dominators
  | _ => True

/-- The dominators that the call makes a block with, if it is told them. -/
def Lays : Call → List BlockId → Prop
  | newBlock d => (· = d.dominators)
  | _ => fun _ => False

end Call

/-- The state after calls of a new builder. -/
def State.after (settings : Settings) (calls : List Call) : State :=
  calls.foldl (fun s c => c.run s) (.new settings)

/-! ## What a call leaves -/

/-- The list is that of the dominators of a block with code before block `b`. -/
def State.IsAbove (s : State) (b : BlockId) (ds : List BlockId) : Prop :=
  ∃ p, p ≠ entryBlock ∧ p < b ∧ (s.block? p).isSome ∧ s.dominatorsOf p = ds

/-- A call was made, or a part of one. Instructions stay what they are. The blocks keep their
dominators, and a new one has itself and those of a block with code, or a list that `D` says. -/
structure Continues (D : List BlockId → Prop) (s t : State) : Prop where
  wellFormed : WellFormed t
  kept : ∀ {b blk}, s.block? b = some blk → ∃ blk', t.block? b = some blk' ∧
    blk'.dominators = blk.dominators
  fresh : ∀ {b blk}, t.block? b = some blk → s.block? b = none →
    ∃ ds, blk.dominators = b :: ds ∧ (D ds ∨ t.IsAbove b ds)
  inst : ∀ {id i}, s.inst? id = some i → ∃ i', t.inst? id = some i' ∧ Outlives i i'

section Continues

variable {D : List BlockId → Prop} {s t u : State} {b : BlockId} {name : String}

/-- Blocks that stay the same in their dominators. -/
theorem Continues.of_dominators (h : WellFormed t)
    (hd : ∀ b, (t.block? b).map (·.dominators) = (s.block? b).map (·.dominators))
    (hi : ∀ {id i}, s.inst? id = some i → ∃ i', t.inst? id = some i' ∧ Outlives i i') :
    Continues D s t := by
  refine ⟨h, fun {b blk} hb => ?_, fun {b blk} hb hnone => ?_, hi⟩
  · have := hd b
    rw [hb, map_some] at this
    exact map_eq_some_iff.mp this
  · have := hd b
    rw [hb, hnone] at this
    cases this

theorem Continues.refl (h : WellFormed s) : Continues D s s :=
  .of_dominators h (fun _ => rfl) fun {_ i} hi => ⟨i, hi, .refl i⟩

theorem Continues.dominatorsOf (h : Continues D s t) (hb : (s.block? b).isSome) :
    t.dominatorsOf b = s.dominatorsOf b := by
  obtain ⟨blk, hb⟩ := isSome_iff_exists.mp hb
  obtain ⟨blk', hb', hd⟩ := h.kept hb
  rw [State.dominatorsOf, State.dominatorsOf, hb, hb', map_some, map_some, hd]

theorem Continues.isSome_block (h : Continues D s t) (hb : (s.block? b).isSome) :
    (t.block? b).isSome := by
  obtain ⟨blk, hb⟩ := isSome_iff_exists.mp hb
  obtain ⟨blk', hb', -⟩ := h.kept hb
  rw [hb']
  rfl

theorem Continues.isAbove (h : Continues D s t) {ds : List BlockId} (hb : s.IsAbove b ds) :
    t.IsAbove b ds := by
  obtain ⟨p, hne, hlt, hp, hds⟩ := hb
  exact ⟨p, hne, hlt, h.isSome_block hp, (h.dominatorsOf hp).trans hds⟩

theorem Continues.trans (h : Continues D s t) (h' : Continues D t u) : Continues D s u := by
  refine ⟨h'.wellFormed, fun {b blk} hb => ?_, fun {b blk} hb hnone => ?_, fun {id i} hi => ?_⟩
  · obtain ⟨blk', hb', hd⟩ := h.kept hb
    obtain ⟨blk'', hb'', hd'⟩ := h'.kept hb'
    exact ⟨blk'', hb'', hd'.trans hd⟩
  · cases ht : t.block? b with
    | none => exact h'.fresh hb ht
    | some blk' =>
      obtain ⟨ds, hds, habove⟩ := h.fresh ht hnone
      obtain ⟨blk'', hb'', hd⟩ := h'.kept ht
      cases hb.symm.trans hb''
      exact ⟨ds, hd.trans hds, habove.imp_right h'.isAbove⟩
  · obtain ⟨i', hi', ho⟩ := h.inst hi
    obtain ⟨i'', hi'', ho'⟩ := h'.inst hi'
    exact ⟨i'', hi'', ho.trans ho'⟩

theorem Advances.map_dominators (h : Advances s t) (b : BlockId) :
    (t.block? b).map (·.dominators) = (s.block? b).map (·.dominators) := by
  have := congrArg (Option.map (·.dominators)) (h.graph b)
  rwa [Option.map_map, Option.map_map] at this

theorem Advances.dominatorsOf_eq (h : Advances s t) (b : BlockId) :
    t.dominatorsOf b = s.dominatorsOf b :=
  congrArg (Option.getD · []) (h.map_dominators b)

theorem Advances.continues (h : Advances s t) : Continues D s t :=
  .of_dominators h.wellFormed h.map_dominators h.inst

theorem Continues.advances (h : Continues D s t) (h' : Advances t u) : Continues D s u :=
  h.trans h'.continues

theorem WellFormed.continues_link (h : WellFormed s) {p c : BlockId} (hp : (s.block? p).isSome)
    (hc : (s.block? c).isSome) : Continues D s (s.link p c) := by
  refine .of_dominators (h.link hp hc) (fun b => ?_) fun {id i} hi => ⟨i, ?_, .refl i⟩
  · exact State.map_block?_link (·.dominators) fun blk => (View.linked_rest p c b blk).2.1
  · rwa [State.link, State.inst?_modifyBlock, State.inst?_modifyBlock]

/-- A block is made with the dominators that the draft says. -/
theorem WellFormed.continues_addBlock (h : WellFormed s) {d : BlockDraft}
    (hps : ∀ q ∈ d.parents, (s.block? q).isSome)
    (hd : D d.dominators ∨ s.IsAbove s.blocks.size d.dominators) :
    Continues D s (s.addBlock d).2 := by
  have hold : ∀ {b blk}, s.block? b = some blk →
      ∃ blk', (s.addBlock d).2.block? b = some blk' ∧ blk'.dominators = blk.dominators := by
    intro b blk hb
    have hne : b ≠ s.blocks.size := by
      rintro rfl
      rw [State.block?_size] at hb
      cases hb
    refine map_eq_some_iff.mp ((s.map_dominators_addBlock d b).trans ?_)
    rw [if_neg hne, hb, map_some]
  have hinst : ∀ (ps : List BlockId) (c : BlockId) (s : State) (id : InstId),
      (ps.foldl (fun s q => s.link q c) s).inst? id = s.inst? id := by
    intro ps c
    induction ps with
    | nil => exact fun _ _ => rfl
    | cons p ps ih =>
      intro s id
      rw [foldl_cons, ih, State.link, State.inst?_modifyBlock, State.inst?_modifyBlock]
  refine ⟨h.addBlock hps, hold, fun {b blk} hb hnone => ?_,
    fun {id i} hi => ⟨i, (hinst d.parents _ _ id).trans hi, .refl i⟩⟩
  have hshape := (s.map_dominators_addBlock d b).symm.trans
    (congrArg (Option.map (·.dominators)) hb)
  split at hshape
  · rename_i hsize
    have hshape : (s.blocks.size : BlockId) :: d.dominators = blk.dominators :=
      Option.some.inj hshape
    refine ⟨d.dominators, by rw [← hshape, hsize], hd.imp_right ?_⟩
    rintro ⟨p, hne, hlt, hp, hds⟩
    obtain ⟨P, hP⟩ := isSome_iff_exists.mp hp
    obtain ⟨P', hP', hd'⟩ := hold hP
    refine ⟨p, hne, hsize ▸ hlt, by rw [hP']; rfl, ?_⟩
    rw [← hds, State.dominatorsOf, State.dominatorsOf, hP, hP', map_some, map_some, hd']
  · rw [hnone] at hshape
    cases hshape

theorem lt_size_of_block? {blk : Block} (hb : s.block? b = some blk) : 0 ≤ b ∧
    b < s.blocks.size := by
  unfold State.block? at hb
  split at hb
  · obtain ⟨hlt, -⟩ := Array.getElem?_eq_some_iff.mp hb
    lia
  · cases hb

/-- The first block with code dominates a new block too, where the lists of `D` say so. -/
theorem Continues.dominated (h : Continues D s t) (hD : ∀ ds, D ds → startBlock ∈ ds)
    (hs : s.Dominated) : t.Dominated := by
  intro b
  induction hn : b.toNat using Nat.strongRecOn generalizing b with
  | _ n ih =>
    intro blk hb hne
    cases hb₀ : s.block? b with
    | some blk₀ =>
      obtain ⟨blk', hb', hd⟩ := h.kept hb₀
      cases hb.symm.trans hb'
      exact hd ▸ hs b blk₀ hb₀ hne
    | none =>
      obtain ⟨ds, hds, hD' | ⟨p, hp, hlt, hsome, rfl⟩⟩ := h.fresh hb hb₀
      · exact hds ▸ mem_cons_of_mem _ (hD ds hD')
      · obtain ⟨P, hP⟩ := isSome_iff_exists.mp hsome
        have hmem := ih p.toNat (by have := (lt_size_of_block? hP).1; lia) p rfl P hP hp
        rw [hds, State.dominatorsOf, hP]
        exact mem_cons_of_mem _ hmem

/-- A call that comes to its end leaves a well-formed state so, and one that fails leaves the state
as it is. -/
def Safe {α : Type} (D : List BlockId → Prop) (m : Build α) (s : State) : Prop :=
  Ends m s (fun _ u => u = s) fun _ t => Continues D s t

theorem isSome_of_eq {blk : Block} (hb : s.block? b = some blk) : (s.block? b).isSome := by
  rw [hb]
  rfl

theorem safe_const (h : WellFormed s) (n : Int64) : Safe D (const n) s :=
  ends_step (h.const n).1.continues

theorem safe_emit (h : WellFormed s) (b : BlockId) (op : Opcode) (x y : Value) :
    Safe D (emit b op x y) s := by
  refine .bind (ends_block rfl fun blk hb => ?_)
  have hb := isSome_of_eq hb
  split
  · split
    · exact .bind (ends_step (.pure (h.const _).1.continues))
    · exact .throw rfl
  · exact .bind (ends_step (.pure (h.emitPhi hb x y).1.continues))
  · rename_i op hconst hphi
    split
    · exact ends_step (h.number hb x y {} ‹_› hconst (Listed.leadingRun_le_endOf b)).continues
    · rename_i hnum
      exact .bind (ends_step (.pure (h.emitEffect hb _ x y (Bool.eq_false_iff.mpr hnum)
        hphi).1.continues))

theorem safe_assign (h : WellFormed s) (b : BlockId) (name : String) (v : Value) :
    Safe D (assign b name v) s := by
  unfold assign
  refine .guard (fun _ => rfl) fun _ => .bind (ends_block rfl fun blk hb => .bind (.get ?_))
  split
  · exact .throw rfl
  · exact ends_step (h.assign (isSome_of_eq hb) v).continues

theorem safe_lookup (h : WellFormed s) (b : BlockId) (name : String) :
    Safe D (lookup b name) s := by
  unfold lookup
  exact .guard (fun _ => rfl) fun _ => .bind (ends_block rfl fun blk hb =>
    ends_step (h.readAtEnd name (fun _ => isSome_of_eq hb) _).continues)

theorem safe_latestVersion (h : WellFormed s) (b : BlockId) (name : String) :
    Safe D (latestVersion b name) s := by
  refine .bind (ends_block rfl fun blk hb => .bind (.get ?_))
  split
  · exact .pure (.refl h)
  · exact .throw rfl

theorem safe_numberedVersion (h : WellFormed s) (b : BlockId) (name : String) (number : Int) :
    Safe D (numberedVersion b name number) s := by
  refine .bind (ends_block rfl fun blk hb => .bind (.get ?_))
  dsimp only
  split
  · exact .pure (.refl h)
  · exact .throw rfl

/-- Making a block, in terms of what is needed of the states it may leave. -/
theorem ends_newBlock {d : BlockDraft} {I : State → Prop} {P : BlockId → State → Prop} (hI : I s)
    (h : (∀ q ∈ d.parents, (s.block? q).isSome) → P (s.addBlock d).1 (s.addBlock d).2) :
    Ends (newBlock d) s (fun _ => I) P := by
  unfold newBlock
  exact .guard (fun _ => hI) fun _ => .bind
    (ends_blocks hI fun _ => .bind (ends_blocks hI fun hps => ends_step (h hps)))

theorem safe_newBlock (h : WellFormed s) {d : BlockDraft} (hd : D d.dominators) :
    Safe D (newBlock d) s :=
  ends_newBlock rfl fun hps => h.continues_addBlock hps (.inl hd)

theorem safe_link (h : WellFormed s) (p c : BlockId) : Safe D (link p c) s :=
  .bind (ends_block rfl fun _ hp => .bind (ends_block rfl fun _ hc =>
    .modify (h.continues_link (isSome_of_eq hp) (isSome_of_eq hc))))

theorem safe_dominators (h : WellFormed s) (b : BlockId) : Safe D (dominators b) s :=
  .bind (ends_block rfl fun _ _ => .pure (.refl h))

theorem safe_openJoin (h : WellFormed s) (kind : JoinKind) : Safe D (openJoin kind) s :=
  .modify (h.of_arenas (t := s.openJoin kind) rfl rfl rfl rfl).continues

theorem ends_closeJoin {loop : Bool} {I : State → Prop} {P : Names → State → Prop} (hI : I s)
    (h : ∀ c rest, s.contexts = c :: rest → (c.kind == .loop) = loop →
      P c.touched { s with contexts := rest }) :
    Ends (closeJoin loop) s (fun _ => I) P := by
  refine .bind (.get ?_)
  split
  · exact .throw hI
  · rename_i c rest hc
    exact .guard (fun _ => hI) fun hkind => .bind
      (.modify (.pure (h c rest hc (by simpa using hkind))))

theorem WellFormed.close (h : WellFormed s) (rest : List JoinContext) :
    Advances s { s with contexts := rest } :=
  h.of_arenas rfl rfl rfl rfl

theorem WellFormed.reconcileAll (h : WellFormed s) (hb : (s.block? b).isSome)
    (names : List String) : Advances s (s.reconcileAll b names) :=
  h.foldl (P := fun _ s => (s.block? b).isSome) (fun ha => ha.isSome_block)
    (fun h hb => h.reconcile hb _) names fun _ _ => hb

theorem safe_reconcileIf (h : WellFormed s) (join : BlockId) : Safe D (reconcileIf join) s := by
  refine .bind (ends_block rfl fun blk hb => .guard (fun _ => rfl) fun _ => .guard
    (fun _ => rfl) fun _ =>
    .bind (ends_closeJoin rfl fun c rest hc _ => .forM_modify ?_))
  have hclose : Advances s { s with contexts := rest } := h.close rest
  exact (hclose.trans (hclose.wellFormed.reconcileAll (isSome_of_eq hb) c.touched)).continues

theorem safe_placePhi (h : WellFormed s) (join : BlockId) (name : String) (x y : Value) :
    Safe D (placePhi join name x y) s := by
  refine .bind (ends_block rfl fun blk hb => .guard (fun _ => rfl) fun _ =>
    .bind (ends_instruction rfl fun _ _ => .bind (ends_instruction rfl fun _ _ =>
      .bind (.modify (.bind (.get ?_))))))
  have hvar := h.addJoinVar join name
  have hmerge := hvar.trans (hvar.wellFormed.merge (hvar.isSome_block (isSome_of_eq hb)) name x y
    ((s.addJoinVar join name).visibleInst? ((s.addJoinVar join name).blockAbove join) name)).1
  split
  · exact .pure hmerge.continues
  · exact .pure hmerge.continues

theorem ends_deferBranch {id : InstId} {slot : Int} {target : BlockId} {I : State → Prop}
    {P : PUnit → State → Prop} (hI : I s)
    (h : IsBranchAt s id → (s.block? target).isSome → ∀ side, P ⟨⟩ (s.defer id side target)) :
    Ends (deferBranch id slot target) s (fun _ => I) P := by
  refine .bind (ends_instruction hI fun i hi => .guard (fun _ => hI) fun hbranch => ?_)
  split
  · exact .throw hI
  · rename_i side _
    refine .bind (ends_block hI fun blk hb => .modify (h ⟨i, hi, ?_⟩ (isSome_of_eq hb) side))
    simpa using hbranch

theorem WellFormed.continues_defer (h : WellFormed s) {id : InstId} (hid : IsBranchAt s id)
    (hb : (s.block? b).isSome) (side : Side) : Continues D s (s.defer id side b) :=
  .of_dominators (h.defer hid side hb) (fun _ => congrArg _ (State.block?_modifyInst ..))
    (h.modifyBranch hid side _).inst

theorem safe_deferBranch (h : WellFormed s) (id : InstId) (slot : Int) (target : BlockId) :
    Safe D (deferBranch id slot target) s :=
  ends_deferBranch rfl fun hid hb => h.continues_defer hid hb

theorem safe_resolveBranches (h : WellFormed s) : Safe D resolveBranches s :=
  .modify h.resolveBranches.continues

theorem safe_finish (h : WellFormed s) : Safe D finish s :=
  .bind (.get (.guard (fun _ => rfl) fun _ => .bind (.modify (.bind (.modify (.bind (.get
    (.pure (h.resolveBranches.report _).continues))))))))

theorem safe_declareArray (h : WellFormed s) (name : String) (dims : List Int64) :
    Safe D (declareArray name dims) s := by
  unfold declareArray
  refine .guard (c := dims.isEmpty = true) (fun _ => rfl) fun _ => ?_
  split
  · exact .throw rfl
  · exact .bind (.get (.guard (fun _ => rfl) fun _ => ends_step (h.addArray name dims).continues))

theorem ends_array {I : State → Prop} {P : ArrayInfo → State → Prop} (hI : I s) (h : ∀ a, P a s) :
    Ends (array name) s (fun _ => I) P := by
  refine .bind (.get ?_)
  split
  · exact .pure (h _)
  · exact .throw hI

theorem ends_accessedArray {I : State → Prop} {P : ArrayInfo → State → Prop} (hI : I s)
    (h : ∀ a, (s.block? b).isSome → P a s) : Ends (accessedArray b name) s (fun _ => I) P := by
  unfold accessedArray
  exact .guard (fun _ => hI) fun _ => .bind (ends_block hI fun blk hb => ends_array hI fun a => h a
    (isSome_of_eq hb))

theorem ends_address {a : ArrayInfo} {indices : List Value} {I : State → Prop}
    {P : Value → State → Prop} (hI : I s)
    (hP : P (s.elementAddress b a indices).1 (s.elementAddress b a indices).2) :
    Ends (address b a indices) s (fun _ => I) P := by
  unfold address
  exact .guard (fun _ => hI) fun _ => ends_step hP

theorem safe_loadElement (h : WellFormed s) (b : BlockId) (name : String) (indices : List Value) :
    Safe D (loadElement b name indices) s := by
  refine .bind (ends_accessedArray rfl fun a hb => .bind (ends_address rfl (ends_step ?_)))
  have hadv := h.elementAddress hb a indices
  exact (hadv.trans (hadv.wellFormed.numberAtEnd (hadv.isSome_block hb) .load _ {} _ rfl
    (by intro he; cases he))).continues

theorem safe_storeElement (h : WellFormed s) (b : BlockId) (name : String) (indices : List Value)
    (v : Value) : Safe D (storeElement b name indices v) s := by
  refine .bind (ends_accessedArray rfl fun a hb => .bind (ends_instruction rfl fun _ _ =>
    .bind (ends_address rfl (.modify ?_))))
  have hadv := h.elementAddress hb a indices
  exact (hadv.trans (hadv.wellFormed.storeAt (hadv.isSome_block hb) name a.epoch v _)).continues

/-! ## Closing a loop -/

/-- A block that is a loop header. -/
def IsHeaderAt (s : State) (b : BlockId) : Prop :=
  ∃ blk, s.block? b = some blk ∧ blk.join = .loop

theorem Advances.isHeaderAt (h : Advances s t) (hb : IsHeaderAt s b) : IsHeaderAt t b := by
  obtain ⟨blk, hb, hjoin⟩ := hb
  obtain ⟨blk', hb', hshape⟩ := exists_shape (fun b => (h.graph b).symm) hb
  exact ⟨blk', hb', (Block.shape_eq hshape).2.1.trans hjoin⟩

theorem ends_mergeLoop (h : WellFormed s) (header bottom : BlockId) :
    Ends (mergeLoop header bottom) s (fun _ => Continues D s) fun _ t => Continues D s t ∧
      IsHeaderAt t header := by
  refine .bind (ends_block (.refl h) fun blk hb => .bind (ends_block (.refl h) fun blk' hb' =>
    .guard (fun _ => (.refl h)) fun hjoin => .bind (ends_closeJoin (.refl h) fun c rest hc _ =>
      .bind (.modify ?_))))
  have hclose : Advances s { s with contexts := rest } := h.close rest
  have hlink : Continues D s (State.link { s with contexts := rest } bottom header) :=
    hclose.continues.trans (hclose.wellFormed.continues_link (isSome_of_eq hb') (isSome_of_eq hb))
  have hsome : ((State.link { s with contexts := rest } bottom header).block? header).isSome :=
    isSome_block?_link.trans (isSome_of_eq hb)
  refine .bind (.get (.guard (fun _ => hlink) fun _ => .forM_modify ?_))
  have hmerge := hlink.wellFormed.reconcileAll hsome c.touched
  refine ⟨hlink.advances hmerge, hmerge.isHeaderAt ?_⟩
  refine ⟨_, (State.block?_link header).trans (congrArg (Option.map _) hb), ?_⟩
  exact (View.linked_rest bottom header header blk).2.2.trans (Decidable.not_not.mp hjoin)

theorem ends_exitLoop (h : Continues D s t) (hb : IsHeaderAt t b) (branch : InstId) :
    Ends (exitLoop b branch) t (fun _ => Continues D s) fun _ u => Continues D s u := by
  obtain ⟨blk, hb, hjoin⟩ := hb
  have hne : b ≠ entryBlock := by
    intro he
    have := h.wellFormed.wired.first (.inl he) hb
    rw [hjoin] at this
    cases this
  refine .bind (.get (.bind (ends_newBlock h fun hps => ?_)))
  have hadd : Continues D s (t.addExit b).2 :=
    h.trans (h.wellFormed.continues_addBlock hps
      (.inr ⟨b, hne, (lt_size_of_block? hb).2, isSome_of_eq hb, rfl⟩))
  split
  · refine .bind (ends_instruction hadd fun i _ => .bind
      (ends_deferBranch hadd fun hid hb side => ?_))
    exact .pure (hadd.trans (hadd.wellFormed.continues_defer hid hb side))
  · exact .pure hadd

theorem ends_reconcileLoop (h : WellFormed s) (header bottom : BlockId) (branch : InstId) :
    Ends (reconcileLoop header bottom branch) s (fun _ => Continues D s) fun _ t => Continues D s
      t := by
  refine .bind ((ends_mergeLoop h header bottom).imp fun _ t ⟨ht, hheader⟩ => .bind (.modify ?_))
  obtain ⟨blk, hb, hjoin⟩ := hheader
  have hrepair := ht.wellFormed.repairLoop hb (by rw [hjoin]; intro he; cases he)
  exact ends_exitLoop (ht.advances hrepair) (hrepair.isHeaderAt ⟨blk, hb, hjoin⟩) branch

/-- A loop cannot be closed: one of its two blocks is not there, the first is no loop header, or no
construct is open, or the innermost is no loop. -/
def State.RefusesLoop (s : State) (header bottom : BlockId) : Prop :=
  s.block? header = none ∨ s.block? bottom = none ∨ (∃ blk, s.block? header = some blk ∧
    blk.join ≠ .loop) ∨ ∀ c, s.contexts.head? = some c → c.kind ≠ .loop

theorem safe_reconcileLoop {header bottom : BlockId} (h : s.RefusesLoop header bottom)
    (branch : InstId) : Safe D (reconcileLoop header bottom branch) s := by
  refine .bind (.bind (ends_block rfl fun blk hb => .bind (ends_block rfl fun blk' hb' => .guard
    (fun _ => rfl) fun hjoin =>
    .bind (ends_closeJoin rfl fun c rest hc hkind => ?_))))
  -- what comes behind the checks is not reached
  rcases h with h | h | ⟨blk₁, hblk₁, h⟩ | h
  · cases hb.symm.trans h
  · cases hb'.symm.trans h
  · cases hb.symm.trans hblk₁
    exact (hjoin h).elim
  · exact (h c (by rw [hc]; rfl) (by simpa using hkind)).elim

end Continues

/-! ## Every call -/

section Reachable

variable {s : State}

theorem Call.run_of_ends {c : Call} {P : State → Prop}
    (h : Ends c.act s (fun _ => P) fun _ t => P t) : P (c.run s) := by
  unfold Call.run
  split
  · exact h.ok _ _ ‹_›
  · exact h.error _ _ ‹_›

theorem Call.IsBelow.mem_of_lays {c : Call} (hc : c.IsBelow) {ds : List BlockId} (h : c.Lays ds) :
    startBlock ∈ ds := by
  cases c with
  | newBlock d =>
    cases h
    exact hc
  | _ => exact h.elim

/-- A call that fails leaves the state as it is, unless it is one that closes a loop and the loop
can be closed. -/
theorem Call.safe (c : Call) (h : WellFormed s)
    (hloop : ∀ header bottom branch, c = reconcileLoop header bottom branch →
      s.RefusesLoop header bottom) :
    Safe c.Lays c.act s := by
  cases c with
  | const n => exact .discard (safe_const h n)
  | emit b op x y => exact .discard (safe_emit h b op x y)
  | assign b name v => exact .discard (safe_assign h b name v)
  | lookup b name => exact .discard (safe_lookup h b name)
  | latestVersion b name => exact .discard (safe_latestVersion h b name)
  | numberedVersion b name number => exact .discard (safe_numberedVersion h b name number)
  | newBlock d => exact .discard (safe_newBlock h rfl)
  | link parent child => exact safe_link h parent child
  | dominators b => exact .discard (safe_dominators h b)
  | openJoin kind => exact safe_openJoin h kind
  | reconcileIf join => exact safe_reconcileIf h join
  | placePhi join name x y => exact .discard (safe_placePhi h join name x y)
  | reconcileLoop header bottom branch =>
    exact .discard (safe_reconcileLoop (hloop _ _ _ rfl) branch)
  | deferBranch id slot target => exact safe_deferBranch h id slot target
  | resolveBranches => exact safe_resolveBranches h
  | declareArray name dims => exact .discard (safe_declareArray h name dims)
  | array name => exact .discard (ends_array rfl fun _ => .refl h)
  | loadElement b name indices => exact .discard (safe_loadElement h b name indices)
  | storeElement b name indices v => exact safe_storeElement h b name indices v
  | block b => exact .discard (ends_block rfl fun _ _ => .refl h)
  | instruction id => exact .discard (ends_instruction rfl fun _ _ => .refl h)
  | finish => exact .discard (safe_finish h)

/-- However a call ends, it leaves a well-formed state so. -/
theorem Call.continues (c : Call) (h : WellFormed s) : Continues c.Lays s (c.run s) := by
  refine c.run_of_ends ?_
  by_cases hc : ∃ header bottom branch, c = reconcileLoop header bottom branch
  · obtain ⟨header, bottom, branch, rfl⟩ := hc
    exact .discard (ends_reconcileLoop h header bottom branch)
  · have hsafe := c.safe h fun header bottom branch he => (hc ⟨header, bottom, branch, he⟩).elim
    exact ⟨hsafe.1, fun e t ht => (hsafe.2 e t ht).symm ▸ .refl h⟩

section New

variable (settings : Settings)

theorem wired_new : Wired (.new settings) where
  entry := rfl
  start := rfl
  id_eq := fun hb => by
    rcases State.cases_block?_new hb with ⟨rfl, rfl⟩ | ⟨rfl, rfl⟩ <;> rfl
  doms := fun hb => by
    rcases State.cases_block?_new hb with ⟨rfl, rfl⟩ | ⟨rfl, rfl⟩
    · exact ⟨[], rfl⟩
    · exact ⟨[0], rfl⟩
  first := fun _ hb => by
    rcases State.cases_block?_new hb with ⟨rfl, rfl⟩ | ⟨rfl, rfl⟩ <;> rfl
  child := fun hp hc => by
    rcases State.cases_block?_new hp with ⟨rfl, rfl⟩ | ⟨rfl, rfl⟩
    · rw [mem_singleton.mp hc]
      exact ⟨_, rfl, mem_singleton.mpr rfl⟩
    · cases hc
  parent := fun hc hp => by
    rcases State.cases_block?_new hc with ⟨rfl, rfl⟩ | ⟨rfl, rfl⟩
    · cases hp
    · rw [mem_singleton.mp hp]
      exact ⟨_, rfl, mem_singleton.mpr rfl⟩
  nodup := fun hb => by
    rcases State.cases_block?_new hb with ⟨rfl, rfl⟩ | ⟨rfl, rfl⟩ <;> simp

theorem listed_new : Listed (.new settings) where
  id_eq := fun {id i} hi => by cases (State.inst?_new settings id).symm.trans hi
  mem_iff b x := by
    rw [State.timelineOf_new]
    cases x with
    | inst id => simp [State.ownerOf, State.inst?_new]
    | mark v => simp [State.ownerOf, State.new]
  nodup b := State.timelineOf_new settings b ▸ .nil
  lead b := State.timelineOf_new settings b ▸ .nil
  phis b := State.timelineOf_new settings b ▸ .nil
  tabled := State.tabled_new settings

theorem wellFormed_new : WellFormed (.new settings) where
  wired := wired_new settings
  listed := listed_new settings
  versioned := by
    have hversion : ∀ (v : VersionId) {a}, (State.new settings).versions[v]? ≠ some a :=
      fun v _ h => by cases h
    exact ⟨fun ha => absurd ha (hversion _), fun ha => absurd ha (hversion _), fun ha => absurd
      ha (hversion _), fun ha => absurd ha (hversion _), fun _ _ _ ha => absurd ha (hversion _),
      fun _ _ _ _ _ ha => absurd ha (hversion _)⟩
  known := {
    entry := fun {b e} he => by
      rw [State.entriesOf_new] at he
      cases he
    const := fun {id i} hi => by cases (State.inst?_new settings id).symm.trans hi
    const_inj := fun {id id' i i'} hi => by cases (State.inst?_new settings id).symm.trans hi
    holder := fun {b p} hp => by
      obtain ⟨blk, hb, hp⟩ := bind_eq_some_iff.mp hp
      rcases State.cases_block?_new hb with ⟨rfl, rfl⟩ | ⟨rfl, rfl⟩ <;> cases hp
    deferral := fun d hd => by cases hd }

end New

/-- Whatever calls a builder gets, its state is well-formed. -/
theorem wellFormed_after (settings : Settings) (calls : List Call) :
    WellFormed (State.after settings calls) := by
  have hall : ∀ (calls : List Call) {s : State}, WellFormed s →
      WellFormed (calls.foldl (fun s c => c.run s) s) := by
    intro calls
    induction calls with
    | nil => exact fun h => h
    | cons c calls ih => exact fun h => ih (c.continues h).wellFormed
  exact hall calls (wellFormed_new settings)

/-- Calls are atomic: one that fails changes nothing, whatever calls came before it. Closing a loop
is so as far as its blocks and the open constructs are concerned. -/
theorem state_of_failed_call (settings : Settings) (calls : List Call) (c : Call)
    {e : Error} {t : State} (hfail : c.act (State.after settings calls) = .error e t)
    (hloop : ∀ header bottom branch, c = .reconcileLoop header bottom branch →
      (State.after settings calls).RefusesLoop header bottom) : t = State.after settings calls :=
  (c.safe (wellFormed_after settings calls) hloop).2 e t hfail

/-- A store with too few indices, and the end of a loop that no construct was opened for. -/
theorem state_of_failed_store :
    (∃ t, (Call.storeElement startBlock "a" [⟨1, .absent⟩] ⟨1, .absent⟩).act
      (.after {} [.declareArray "a" [2, 3]]) = .error (.indexCount "a" 2 1) t ∧
      t = .after {} [.declareArray "a" [2, 3]]) ∧
    ∃ t, (Call.reconcileLoop 2 2 0).act
      (.after {} [.newBlock ⟨.loopHeader, .loop, [startBlock], [startBlock]⟩]) = .error .noOpenJoin
      t ∧ t = .after {} [.newBlock ⟨.loopHeader, .loop, [startBlock], [startBlock]⟩] := by
  refine ⟨⟨_, rfl, state_of_failed_call {} [.declareArray "a" [2, 3]]
      (.storeElement startBlock "a" [⟨1, .absent⟩] ⟨1, .absent⟩) rfl fun _ _ _ he => ?_⟩,
    ⟨_, rfl, state_of_failed_call {} _ (.reconcileLoop 2 2 0) rfl fun _ _ _ _ => ?_⟩⟩
  · cases he
  · exact .inr (.inr (.inr fun c hc => by cases hc))

/-- The first block with code dominates all others if it does so by the calls that make blocks. -/
theorem dominated_after (settings : Settings) {calls : List Call}
    (hcalls : ∀ c ∈ calls, c.IsBelow) : (State.after settings calls).Dominated := by
  have hall : ∀ (calls : List Call) {s : State}, (∀ c ∈ calls, c.IsBelow) →
    WellFormed s → s.Dominated → (calls.foldl (fun s c => c.run s) s).Dominated := by
    intro calls
    induction calls with
    | nil => exact fun _ _ hd => hd
    | cons c calls ih =>
      intro s hcalls h hd
      have hc := c.continues h
      exact ih (fun c hc => hcalls c (mem_cons_of_mem _ hc)) hc.wellFormed
        (hc.dominated (fun _ => (hcalls c (mem_cons_self ..)).mem_of_lays) hd)
  refine hall calls hcalls (wellFormed_new settings) fun b blk hb hne => ?_
  rw [State.block?_new, if_neg (show b ≠ 0 from hne)] at hb
  split at hb
  · cases hb
    exact mem_cons_self ..
  · cases hb

end Reachable

end Builder

end SingleAssignment
