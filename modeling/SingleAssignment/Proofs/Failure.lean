import SingleAssignment.Proofs.Branching

/-!
# Calls that fail

What is left of a step that fails is its error (`Fails`). The calls that lowering makes do not fail
where they are made with blocks and instructions that are there (`Never`), but for those on arrays,
which fail if there is no such array or the number of indices is another one (`State.Misindexed`).
-/

namespace SingleAssignment

open Code Builder Source List

/-- If a step from a state fails, its error is as `E` says. -/
abbrev Fails {ε σ α : Type} (m : EStateM ε σ α) (s : σ) (E : ε → Prop) : Prop :=
  Ends m s (fun e _ => E e) fun _ _ => True

/-- A step from a state cannot fail. -/
abbrev Never {ε σ α : Type} (m : EStateM ε σ α) (s : σ) : Prop :=
  Fails m s fun _ => False

namespace Ends

variable {ε σ α β : Type} {m : EStateM ε σ α} {f : α → EStateM ε σ β} {s : σ} {E : ε → Prop}

theorem of_error (h : ∀ e t, m s = .error e t → E e) : Fails m s E :=
  ⟨fun _ _ _ => trivial, h⟩

/-- A step that cannot fail fails as anything says. -/
theorem of_never (h : Never m s) : Fails m s E :=
  .of_error fun e t ht => (h.error e t ht).elim

/-- A step with another after it fails as either does. -/
theorem before (hm : Fails m s E) (hf : Yields m s fun a t => Fails (f a) t E) :
    Fails (m >>= f) s E :=
  bind ⟨hf.ok, hm.error⟩

end Ends

namespace Builder

variable {s : State} {b : BlockId}

/-! ## Calls of the builder -/

theorem never_step {α : Type} (f : State → α × State) : Never (Build.step f) s :=
  ends_step trivial

theorem never_block (hb : (s.view.graph b).isSome) : Never (Build.block b) s := by
  obtain ⟨blk, hblk⟩ := State.isSome_view_graph.mp hb
  refine .bind (.get ?_)
  rw [hblk]
  exact .pure trivial

theorem never_instruction {id : InstId} {i : Instruction} (hi : s.inst? id = some i) :
    Never (Build.instruction id) s := by
  refine .bind (.get ?_)
  rw [hi]
  exact .pure trivial

theorem never_blocks {l : List BlockId} (h : ∀ b ∈ l, (s.view.graph b).isSome) :
    Never (l.forM fun b => discard (Build.block b)) s := by
  induction l with
  | nil => exact .pure trivial
  | cons b l ih =>
    obtain ⟨hb, hl⟩ := forall_mem_cons.mp h
    exact .before (.discard (never_block hb)) (.discard (yields_block fun _ _ => ih hl))

theorem never_emit (hb : (s.view.graph b).isSome) {op : Opcode} (hop : op ≠ .const) (x y : Value) :
    Never (emit b op x y) s := by
  refine .before (never_block hb) (yields_block fun _ _ => ?_)
  split
  · exact absurd rfl hop
  · exact .before (never_step _) (ends_step (.pure trivial))
  · split
    · exact never_step _
    · exact .before (never_step _) (ends_step (.pure trivial))

theorem never_lookup (hb : (s.view.graph b).isSome) (hne : b ≠ entryBlock) (name : String) :
    Never (lookup b name) s := by
  unfold lookup
  exact .guard hne fun _ => .before (never_block hb) (yields_block fun _ _ => never_step _)

theorem never_assign (hb : (s.view.graph b).isSome) (hne : b ≠ entryBlock)
    (name : String) {v : Value} {i : Instruction} (hi : s.inst? v.id = some i) :
    Never (assign b name v) s := by
  unfold assign
  refine .guard hne fun _ => .before (never_block hb) (yields_block fun _ _ => .bind (.get ?_))
  rw [hi]
  exact never_step _

/-- Why the address of an element cannot be computed. -/
def State.Misindexed (s : State) (name : String) (given : Nat) (e : Error) : Prop :=
  (s.array? name = none ∧ e = .noArray name) ∨
    ∃ a, s.array? name = some a ∧ given ≠ a.dims.length ∧ e = .indexCount name a.dims.length given

theorem fails_accessedArray (hb : (s.view.graph b).isSome) (hne : b ≠ entryBlock) (name : String)
    (given : Nat) : Fails (accessedArray b name) s (s.Misindexed name given) := by
  unfold accessedArray
  refine .guard (fun h => absurd h hne) fun _ => .before (.of_never (never_block hb))
    (yields_block fun _ _ => .bind (.get ?_))
  split
  · exact .pure trivial
  · exact .throw (.inl ⟨‹_›, rfl⟩)

theorem fails_address {name : String} {a : ArrayInfo} (ha : s.array? name = some a)
    (indices : List Value) : Fails (address b a indices) s (s.Misindexed name indices.length) := by
  have hname : a.name = name := by simpa using find?_some ha
  unfold address
  exact .guard (fun hlen => .inr ⟨a, ha, hlen, by rw [hname]⟩) fun _ => .of_never (never_step _)

theorem fails_loadElement (hb : (s.view.graph b).isSome) (hne : b ≠ entryBlock) (name : String)
    (indices : List Value) : Fails (loadElement b name indices) s
    (s.Misindexed name indices.length) := by
  refine .before (fails_accessedArray hb hne name _) (yields_accessedArray.imp ?_)
  rintro a _ ⟨ha, rfl⟩
  exact .before (fails_address ha indices) <| .of_ok fun _ _ _ => .of_never (never_step _)

theorem fails_storeElement (hb : (s.view.graph b).isSome) (hne : b ≠ entryBlock) (name : String)
    (indices : List Value) {v : Value} {i : Instruction} (hi : s.inst? v.id = some i) :
    Fails (storeElement b name indices v) s (s.Misindexed name indices.length) := by
  refine .before (fails_accessedArray hb hne name _) (yields_accessedArray.imp ?_)
  rintro a _ ⟨ha, rfl⟩
  exact .before (.of_never (never_instruction hi)) (yields_instruction fun _ _ =>
    .before (fails_address ha indices) <| .of_ok fun _ _ _ => .modify trivial)

theorem never_declareArray {name : String} {dims : List Int64} (hdims : dims ≠ [])
    (hpos : ∀ d ∈ dims, 0 < d) (hnew : s.array? name = none) :
    Never (declareArray name dims) s := by
  unfold declareArray
  refine .guard (c := dims.isEmpty = true) (fun h => hdims (List.isEmpty_iff.mp h)) fun _ => ?_
  split
  · rename_i d hd
    have hle : d ≤ 0 := by simpa using find?_some hd
    exact absurd (hpos d (mem_of_find?_eq_some hd)) (Int64.not_lt.mpr hle)
  · exact .bind (.get (.guard (fun h => by simp [hnew] at h) fun _ => never_step _))

theorem State.frame_const (s : State) (n : Int64) : (s.const n).2.frame = s.frame := by
  unfold State.const
  dsimp only
  split
  · rfl
  · rw [frame_record, frame_place]

theorem State.frame_consts (s : State) (ns : List Int64) : (s.consts ns).2.frame = s.frame := by
  induction ns generalizing s with
  | nil => rfl
  | cons n ns ih => exact (ih _).trans (s.frame_const n)

theorem State.arrays_addArray (s : State) (name : String) (dims : List Int64) :
    (s.addArray name dims).2.arrays = s.arrays ++ [(s.addArray name dims).1] :=
  congrArg (· ++ [(s.addArray name dims).1])
    (arrays_of_frame ((State.frame_consts _ _).trans (State.frame_const _ _)))

theorem never_dominators (hb : (s.view.graph b).isSome) : Never (dominators b) s :=
  .before (never_block hb) (yields_block fun _ _ => .pure trivial)

/-- A block can be made below a block that is there, entered from blocks that are there. -/
theorem never_newBlock {floor p : BlockId} (h : Laid floor s) {d : BlockDraft}
    (hp : (s.view.graph p).isSome) (hdoms : d.dominators = s.view.doms p)
    (hps : ∀ q ∈ d.parents, (s.view.graph q).isSome) : Never (newBlock d) s := by
  have hne : ¬ d.dominators.isEmpty = true := by
    rw [hdoms, h.layout.graph.doms_eq hp]
    simp
  have hvalid : ∀ x ∈ d.dominators, (s.view.graph x).isSome := by
    intro x hx
    rw [hdoms] at hx
    obtain ⟨hnonneg, hle⟩ := h.layout.graph.le_of_mem_doms hx
    have hlt := ((h.layout.graph.valid p).mp hp).2
    exact (h.layout.graph.valid x).mpr ⟨hnonneg, Int.lt_of_le_of_lt hle hlt⟩
  unfold newBlock
  exact .guard hne fun _ => .before (never_blocks hvalid) (ends_blocks trivial fun _ => .before
    (never_blocks hps) (ends_blocks trivial fun _ => never_step _))

theorem never_deferBranch {id : InstId} {i : Instruction} {slot : Int} {side : Side}
    {target : BlockId} (hi : s.inst? id = some i) (hop : i.op.isBranch = true)
    (hslot : Side.ofIndex? slot = some side) (ht : (s.view.graph target).isSome) :
    Never (deferBranch id slot target) s := by
  refine .before (never_instruction hi) (yields_instruction fun i' hi' => ?_)
  cases hi.symm.trans hi'
  refine .guard (fun hnot => by simp [hop] at hnot) fun _ => ?_
  rw [hslot]
  exact .before (never_block ht) (yields_block fun _ _ => .modify trivial)

theorem never_closeJoin {loop : Bool} {c : JoinContext} {rest : List JoinContext}
    (hc : s.contexts = c :: rest) (hkind : (c.kind == .loop) = loop) :
    Never (closeJoin loop) s := by
  refine .bind (.get ?_)
  rw [hc]
  exact .guard (fun hne => by simp [hkind] at hne) fun _ => .bind (.modify (.pure trivial))

theorem never_reconcileIf {join : BlockId} {c : JoinContext} {rest : List JoinContext}
    (hjoin : s.view.join join = .ifThen ∨ s.view.join join = .ifElse)
    (hparents : (s.view.parents join).length = 2) (hc : s.contexts = c :: rest)
    (hkind : c.kind ≠ .loop) : Never (reconcileIf join) s := by
  have hvalid : (s.view.graph join).isSome := by
    cases hg : s.view.graph join with
    | none => simp [View.join, hg] at hjoin
    | some blk => rfl
  refine .before (never_block hvalid) (yields_block fun blk hblk => ?_)
  have hshape : s.view.graph join = some blk.shape := congrArg (Option.map Block.shape) hblk
  have hj : blk.join = .ifThen ∨ blk.join = .ifElse := by
    simpa [View.join, hshape, Block.shape] using hjoin
  have hp : blk.parents.length = 2 := by
    simpa [View.parents, hshape, Block.shape] using hparents
  refine .guard (fun hne => ?_) fun _ => .guard (fun hne => absurd hp hne) fun _ =>
    .before (never_closeJoin hc (by simpa using hkind)) (.of_ok fun _ _ _ => .forM_modify trivial)
  rcases hj with hj | hj <;> simp [hj] at hne

/-- The innermost loop can be closed from a block that is no parent of the header yet. -/
theorem never_mergeLoop {header bottom pre : BlockId} {c : JoinContext} {rest : List JoinContext}
    (hjoin : s.view.join header = .loop) (hparents : s.view.parents header = [pre])
    (hne : bottom ≠ pre) (hbottom : (s.view.graph bottom).isSome) (hc : s.contexts = c :: rest)
    (hkind : c.kind = .loop) : Never (mergeLoop header bottom) s := by
  have hvalid := View.isSome_of_join hjoin
  refine .before (never_block hvalid) (yields_block fun blk hblk => .before (never_block hbottom)
    (yields_block fun _ _ => ?_))
  have hshape : s.view.graph header = some blk.shape := congrArg (Option.map Block.shape) hblk
  have hj : blk.join = .loop := by
    simpa [View.join, hshape, Block.shape] using hjoin
  refine .guard (fun hnot => absurd hj hnot) fun _ => .before (never_closeJoin hc (by simp [hkind]))
    (yields_closeJoin fun c' rest' hc' => .bind (.modify (.bind (.get ?_))))
  have hlink : (State.link { s with contexts := rest' } bottom header).view.parents
    header = [pre, bottom] := by
    rw [State.parents_link (s := { s with contexts := rest' }) hvalid]
    show (if header = header ∧ bottom ∉ s.view.parents header then s.view.parents header ++ [bottom]
      else s.view.parents header) = _
    rw [hparents, if_pos ⟨rfl, by simpa using hne⟩]
    rfl
  have htwo : ∀ t : State, t.view.parents header = [pre, bottom] →
      (((t.block? header).map (·.parents)).getD []).length = 2 := by
    intro t ht
    have hsame : ((t.block? header).map (·.parents)).getD [] = t.view.parents header := by
      simp [View.parents, State.view, Block.shape, Function.comp_def]
    rw [hsame, ht]
    rfl
  exact .guard (fun hnot => absurd (htwo _ hlink) hnot) fun _ => .forM_modify trivial

/-- The block behind a loop can be made, and a branch can go there. -/
theorem never_exitLoop {floor header : BlockId} {branch : InstId} {i : Instruction}
    (h : Sound floor s) (hheader : (s.view.graph header).isSome)
    (hi : (s.addExit header).2.inst? branch = some i) (hop : i.op.isBranch = true) :
    Never (exitLoop header branch) s := by
  obtain ⟨-, -, -, -, -, hvalid, -⟩ := h.addBlock
    (d := { kind := .exit, dominators := s.dominatorsOf header, parents := [header] })
    (.below hheader (Lowering.dominatorsOf_eq _ _) rfl) (by intro he; cases he)
  refine .bind (.get (.before (never_newBlock h.laid hheader (Lowering.dominatorsOf_eq _ _)
    fun q hq => ?_) (yields_newBlock ?_)))
  · rwa [mem_singleton.mp hq]
  · split
    · refine .before (never_instruction hi) (yields_instruction fun i' hi' => ?_)
      cases hi.symm.trans hi'
      refine .before ?_ (.of_ok fun _ _ _ => .pure trivial)
      cases hcond : i.op.isConditional with
      | true => exact never_deferBranch hi hop rfl hvalid
      | false => exact never_deferBranch hi hop rfl hvalid
    · exact .pure trivial

theorem never_finish (hc : s.contexts = []) : Never finish s :=
  .bind (.get (.guard (fun hne => by simp [hc] at hne) fun _ => .bind (.modify
    (.bind (.modify (.bind (.get (.pure trivial))))))))

end Builder

end SingleAssignment
