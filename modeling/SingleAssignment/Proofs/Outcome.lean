import SingleAssignment.Lowering.Basic

/-!
# Outcomes of lowering

How a step of lowering ends (`Ends`), and what it has done where its failures do not matter
(`Yields`). Each lemma takes a step apart into the steps and the changes of the builder's state it
is made of.
-/

namespace SingleAssignment

open Code Builder Source

/-- However a step from a state ends: if it comes to its end, its answer and the state after it are
as `P` says, and if it fails, its error and the state it leaves are as `E` says. -/
structure Ends {ε σ α : Type} (m : EStateM ε σ α) (s : σ) (E : ε → σ → Prop) (P : α → σ → Prop) :
    Prop where
  ok : ∀ a t, m s = .ok a t → P a t
  error : ∀ e t, m s = .error e t → E e t

/-- If a step from a state comes to its end, its answer and the state after it are as `P` says. -/
abbrev Yields {ε σ α : Type} (m : EStateM ε σ α) (s : σ) (P : α → σ → Prop) : Prop :=
  Ends m s (fun _ _ => True) P

section

variable {ε σ α β : Type} {m : EStateM ε σ α} {f : α → EStateM ε σ β} {s : σ} {E : ε → σ → Prop}
  {P : α → σ → Prop} {Q : β → σ → Prop}

instance : CoeFun (Ends m s E P) fun _ => ∀ a t, m s = .ok a t → P a t :=
  ⟨Ends.ok⟩

namespace Ends

theorem of_eq_ok {a : α} {t : σ} (hm : m s = .ok a t) (h : P a t) : Ends m s E P := by
  constructor <;> intro _ _ ht <;> rw [hm] at ht <;> cases ht
  exact h

theorem of_eq_error {e : ε} {t : σ} (hm : m s = .error e t) (h : E e t) : Ends m s E P := by
  constructor <;> intro _ _ ht <;> rw [hm] at ht <;> cases ht
  exact h

/-- The step itself says what it yields. -/
theorem self (h : Ends m s E P) : Ends m s E fun a t => P a t ∧ m s = .ok a t :=
  ⟨fun a t ht => ⟨h a t ht, ht⟩, h.error⟩

theorem and {E' : ε → σ → Prop} {R : α → σ → Prop} (h : Ends m s E P) (h' : Ends m s E' R) :
    Ends m s E fun a t => P a t ∧ R a t :=
  ⟨fun a t ht => ⟨h a t ht, h' a t ht⟩, h.error⟩

theorem of_ok (h : ∀ a t, m s = .ok a t → P a t) : Yields m s P :=
  ⟨h, fun _ _ _ => trivial⟩

theorem mono {E' : ε → σ → Prop} {R : α → σ → Prop} (h : Ends m s E P) (hE : ∀ e t, E e t → E' e t)
    (hR : ∀ a t, P a t → R a t) : Ends m s E' R :=
  ⟨fun a t ht => hR a t (h a t ht), fun e t ht => hE e t (h.error e t ht)⟩

theorem imp {R : α → σ → Prop} (h : Ends m s E P) (hR : ∀ a t, P a t → R a t) : Ends m s E R :=
  h.mono (fun _ _ => id) hR

theorem pure {a : α} (h : P a s) : Ends (Pure.pure a : EStateM ε σ α) s E P :=
  of_eq_ok rfl h

theorem throw {e : ε} (h : E e s) : Ends (MonadExcept.throw e : EStateM ε σ α) s E P :=
  of_eq_error rfl h

theorem get {P : σ → σ → Prop} (h : P s s) : Ends (MonadState.get : EStateM ε σ σ) s E P :=
  of_eq_ok rfl h

theorem modify {g : σ → σ} {P : PUnit → σ → Prop} (h : P ⟨⟩ (g s)) :
    Ends (modify g : EStateM ε σ PUnit) s E P :=
  of_eq_ok rfl h

theorem bind (h : Ends m s E fun a t => Ends (f a) t E Q) : Ends (m >>= f) s E Q := by
  have hbind : (m >>= f) s = EStateM.bind m f s := rfl
  cases hm : m s with
  | ok a t =>
    have hf : (m >>= f) s = f a t := by rw [hbind, EStateM.bind, hm]
    exact ⟨fun b u hu => (h a t hm).ok b u (hf ▸ hu), fun e u hu => (h a t hm).error e u (hf ▸ hu)⟩
  | error e t =>
    have hf : (m >>= f) s = .error e t := by rw [hbind, EStateM.bind, hm]
    exact of_eq_error hf (h.error e t hm)

/-- A step that cannot fail comes to its end. -/
theorem exists_ok (h : Ends m s (fun _ _ => False) P) : ∃ a t, m s = .ok a t ∧ P a t := by
  cases hm : m s with
  | ok a t => exact ⟨a, t, rfl, h a t hm⟩
  | error e t => exact (h.error e t hm).elim

/-- A check in front of a step. -/
theorem guard {c : Prop} [Decidable c] {e : ε} {rest : PUnit → EStateM ε σ α} (he : c → E e s)
    (h : ¬ c → Ends (rest ⟨⟩) s E P) :
    Ends (if c then MonadExcept.throw e >>= rest else rest ⟨⟩) s E P := by
  split
  · exact bind (throw (he ‹_›))
  · exact h ‹_›

/-- A step that comes to its end passed the check in front of it. -/
theorem check {c : Prop} [Decidable c] {e : ε} {rest : PUnit → EStateM ε σ α}
    (h : ¬ c → Yields (rest ⟨⟩) s P) :
    Yields (if c then MonadExcept.throw e >>= rest else rest ⟨⟩) s P :=
  guard (fun _ => trivial) h

theorem discard {P : PUnit → σ → Prop} (h : Ends m s E fun _ t => P ⟨⟩ t) :
    Ends (Functor.discard m) s E P :=
  bind (f := fun _ => Pure.pure PUnit.unit) (h.imp fun _ _ => pure)

theorem forM_modify {g : α → σ → σ} {P : PUnit → σ → Prop} {l : List α}
    (h : P ⟨⟩ (l.foldl (fun s a => g a s) s)) :
    Ends (l.forM fun a => (MonadStateOf.modifyGet fun s => (PUnit.unit, g a s) : EStateM ε σ PUnit))
      s E P := by
  induction l generalizing s with
  | nil => exact pure h
  | cons a l ih => exact bind (modify (ih h))

end Ends

end

namespace Builder

variable {s : State} {b : BlockId}

theorem ends_step {α : Type} {f : State → α × State} {E : Error → State → Prop}
    {P : α → State → Prop} (h : P (f s).1 (f s).2) : Ends (Build.step f) s E P :=
  .of_eq_ok rfl h

theorem ends_block {I : State → Prop} {P : Block → State → Prop} (hI : I s)
    (h : ∀ blk, s.block? b = some blk → P blk s) : Ends (Build.block b) s (fun _ => I) P := by
  refine .bind (.get ?_)
  split
  · exact .pure (h _ ‹_›)
  · exact .throw hI

theorem ends_instruction {id : InstId} {I : State → Prop} {P : Instruction → State → Prop}
    (hI : I s) (h : ∀ i, s.inst? id = some i → P i s) : Ends (Build.instruction id) s
    (fun _ => I) P := by
  refine .bind (.get ?_)
  split
  · exact .pure (h _ ‹_›)
  · exact .throw hI

theorem ends_blocks {l : List BlockId} {I : State → Prop} {P : PUnit → State → Prop} (hI : I s)
    (h : (∀ b ∈ l, (s.block? b).isSome) → P ⟨⟩ s) :
    Ends (l.forM fun b => discard (Build.block b)) s (fun _ => I) P := by
  induction l with
  | nil => exact .pure (h fun _ hb => absurd hb List.not_mem_nil)
  | cons b l ih =>
    refine .bind (.discard (ends_block hI fun blk hb => ih fun hl => h fun b' hb' => ?_))
    rcases List.mem_cons.mp hb' with rfl | hb'
    · rw [hb]
      rfl
    · exact hl b' hb'

theorem yields_block {P : Block → State → Prop} (h : ∀ blk, s.block? b = some blk → P blk s) :
    Yields (Build.block b) s P :=
  ends_block trivial h

theorem yields_instruction {id : InstId} {P : Instruction → State → Prop}
    (h : ∀ i, s.inst? id = some i → P i s) : Yields (Build.instruction id) s P :=
  ends_instruction trivial h

/-- An operation in a block is a numbered one, a constant, a phi or one with an effect. -/
theorem yields_emit {op : Opcode} {x y : Value} : Yields (emit b op x y) s fun r t =>
    (op.isNumbered = true ∧ op ≠ .const ∧ (r.1, t) = s.numberAtEnd b op x y {}) ∨
    (op = .const ∧ ∃ n id, x.src = .immediate n id ∧ (r.1, t) = s.const n) ∨
    (op = .phi ∧ (r.1, t) = s.emitPhi b x y) ∨
    (op.isNumbered = false ∧ op ≠ .phi ∧ (r.1, t) = s.emitEffect b op x y) := by
  refine .bind (yields_block fun blk _ => ?_)
  split
  · split
    · rename_i n id hsrc
      exact .bind (ends_step (.pure (.inr (.inl ⟨rfl, n, id, hsrc, rfl⟩))))
    · exact .throw trivial
  · exact .bind (ends_step (.pure (.inr (.inr (.inl ⟨rfl, rfl⟩)))))
  · rename_i op hconst hphi
    split
    · exact ends_step (.inl ⟨‹_›, hconst, rfl⟩)
    · rename_i hnum
      exact .bind (ends_step (.pure (.inr (.inr (.inr ⟨Bool.eq_false_iff.mpr hnum, hphi, rfl⟩)))))

theorem yields_assign {name : String} {v : Value} : Yields (assign b name v) s fun _ t =>
    b ≠ entryBlock ∧ (∃ i, s.inst? v.id = some i) ∧ t = (s.assign b name v).2 := by
  unfold assign
  refine .check fun hb => .bind (yields_block fun _ _ => .bind (.get ?_))
  split
  · exact .throw trivial
  · exact ends_step ⟨hb, ⟨_, ‹_›⟩, rfl⟩

theorem yields_lookup {name : String} : Yields (lookup b name) s fun v t =>
    b ≠ entryBlock ∧ (v, t) = s.readAtEnd b name (some .readFirst) := by
  unfold lookup
  exact .check fun hb => .bind (yields_block fun _ _ => ends_step ⟨hb, rfl⟩)

theorem yields_accessedArray {name : String} : Yields (accessedArray b name) s fun a t =>
    s.array? name = some a ∧ t = s := by
  unfold accessedArray
  refine .check fun _ => .bind (yields_block fun _ _ => .bind (.get ?_))
  split
  · exact .pure ⟨‹_›, rfl⟩
  · exact .throw trivial

theorem yields_address {a : ArrayInfo} {indices : List Value} :
    Yields (address b a indices) s fun v t =>
      indices.length = a.dims.length ∧ (v, t) = s.elementAddress b a indices := by
  unfold address
  exact .check fun hlen => ends_step ⟨Decidable.not_not.mp hlen, rfl⟩

/-- Reading an element computes its address and then finds or makes a load. -/
theorem yields_loadElement {name : String} {indices : List Value} :
    Yields (loadElement b name indices) s fun v t =>
      ∃ a, s.array? name = some a ∧ indices.length = a.dims.length ∧
        (v, t) = (s.elementAddress b a indices).2.numberAtEnd b .load
          (s.elementAddress b a indices).1 {} ⟨name, a.epoch⟩ := by
  refine .bind (yields_accessedArray.imp fun a _ ⟨ha, hs⟩ => ?_)
  subst hs
  refine .bind (yields_address.imp fun addr t ⟨hlen, haddr⟩ => ?_)
  obtain ⟨rfl, rfl⟩ := Prod.mk.inj haddr
  exact ends_step ⟨a, ha, hlen, rfl⟩

/-- Writing an element computes its address and then makes a store. -/
theorem yields_storeElement {name : String} {indices : List Value} {v : Value} :
    Yields (storeElement b name indices v) s fun _ t =>
      ∃ a, s.array? name = some a ∧ indices.length = a.dims.length ∧ (∃ i, s.inst? v.id = some i) ∧
        t = (s.elementAddress b a indices).2.storeAt b name a.epoch v
          (s.elementAddress b a indices).1 := by
  refine .bind (yields_accessedArray.imp fun a _ ⟨ha, hs⟩ => ?_)
  subst hs
  refine .bind (yields_instruction fun i hi => .bind
    (yields_address.imp fun addr t ⟨hlen, haddr⟩ => ?_))
  obtain ⟨rfl, rfl⟩ := Prod.mk.inj haddr
  exact .modify ⟨a, ha, hlen, ⟨i, hi⟩, rfl⟩

theorem yields_declareArray {name : String} {dims : List Int64} :
    Yields (declareArray name dims) s fun a t =>
      dims ≠ [] ∧ (∀ d ∈ dims, 0 < d) ∧ s.array? name = none ∧ (a, t) = s.addArray name dims := by
  unfold declareArray
  refine .check (c := dims.isEmpty = true) fun hdims => ?_
  split
  · exact .throw trivial
  · rename_i hpos
    refine .bind (.get (.check fun hnew => ends_step ⟨by simpa using hdims, fun d hd => ?_,
      by simpa using hnew, rfl⟩))
    simpa using List.find?_eq_none.mp hpos d hd

theorem yields_dominators {P : List BlockId → State → Prop}
    (h : ∀ blk, s.block? b = some blk → P (s.dominatorsOf b) s) : Yields (dominators b) s P := by
  refine .bind (yields_block fun blk hblk => .pure ?_)
  have hp := h blk hblk
  rwa [State.dominatorsOf, hblk] at hp

theorem yields_newBlock {d : BlockDraft} {P : BlockId → State → Prop}
    (h : P (s.addBlock d).1 (s.addBlock d).2) : Yields (newBlock d) s P := by
  unfold newBlock
  exact .check fun _ => .bind (ends_blocks trivial fun _ => .bind
    (ends_blocks trivial fun _ => ends_step h))

/-- A slot of a branch waits for a block. -/
def State.defer (s : State) (id : InstId) (side : Side) (target : BlockId) : State :=
  let s := s.modifyInst id (·.withSlot side (.pending target))
  { s with deferrals := s.deferrals.push ⟨id, side, target⟩ }

theorem yields_deferBranch {id : InstId} {slot : Int} {target : BlockId} :
    Yields (deferBranch id slot target) s fun _ t => ∃ i side, s.inst? id = some i ∧
      i.op.isBranch = true ∧ Side.ofIndex? slot = some side ∧ (∃ blk, s.block? target = some blk) ∧
      t = s.defer id side target := by
  refine .bind (yields_instruction fun i hi => .check fun hbranch => ?_)
  split
  · exact .throw trivial
  · rename_i side hside
    refine .bind (yields_block fun blk hblk => .modify ⟨i, side, hi, ?_, hside, ⟨blk, hblk⟩, rfl⟩)
    simpa using hbranch

theorem yields_closeJoin {loop : Bool} {P : Names → State → Prop}
    (h : ∀ c rest, s.contexts = c :: rest → P c.touched { s with contexts := rest }) :
    Yields (closeJoin loop) s P := by
  refine .bind (.get ?_)
  split
  · exact .throw trivial
  · rename_i c rest hc
    exact .check fun _ => .bind (.modify (.pure (h c rest hc)))

/-- Merges variables at a join, one after the other. -/
def State.reconcileAll (s : State) (j : BlockId) (names : List String) : State :=
  names.foldl (fun s name => s.reconcile j name) s

theorem yields_reconcileIf {join : BlockId} : Yields (reconcileIf join) s fun _ t =>
    ∃ blk c rest, s.block? join = some blk ∧ blk.parents.length = 2 ∧ s.contexts = c :: rest ∧
      t = State.reconcileAll { s with contexts := rest } join c.touched := by
  refine .bind (yields_block fun blk hblk => .check fun _ => .check fun hparents =>
    .bind (yields_closeJoin fun c rest hc => .forM_modify ⟨blk, c, rest, hblk, ?_, hc, rfl⟩))
  exact Decidable.not_not.mp hparents

theorem yields_mergeLoop {header bottom : BlockId} : Yields (mergeLoop header bottom) s fun _ t =>
    ∃ blk c rest, s.block? header = some blk ∧ blk.join = .loop ∧
      (∃ blk', s.block? bottom = some blk') ∧ s.contexts = c :: rest ∧
      t = (State.link { s with contexts := rest } bottom header).reconcileAll header c.touched := by
  refine .bind (yields_block fun blk hblk => .bind (yields_block fun blk' hblk' =>
    .check fun hjoin => .bind (yields_closeJoin fun c rest hc => .bind (.modify (.bind (.get
      (.check fun _ => .forM_modify ⟨blk, c, rest, hblk, ?_, ⟨blk', hblk'⟩, hc, rfl⟩)))))))
  exact Decidable.not_not.mp hjoin

/-- The block behind a loop. -/
def State.addExit (s : State) (header : BlockId) : BlockId × State :=
  s.addBlock { kind := .exit, dominators := s.dominatorsOf header, parents := [header] }

/-- The block behind a loop is made, and the branch that leaves the header goes there. -/
theorem yields_exitLoop {header : BlockId} {branch : InstId} :
    Yields (exitLoop header branch) s fun exit t => exit = (s.addExit header).1 ∧
      (branch = 0 ∧ t = (s.addExit header).2 ∨
        ∃ i, (s.addExit header).2.inst? branch = some i ∧ i.op.isBranch = true ∧
          t = (s.addExit header).2.defer branch (if i.op.isConditional then .y else .x) exit) := by
  refine .bind (.get (.bind (yields_newBlock ?_)))
  split
  · refine .bind (yields_instruction fun i hi => .bind (yields_deferBranch.imp ?_))
    rintro _ t ⟨i', side, hi', hop, hside, -, rfl⟩
    cases hi.symm.trans hi'
    refine .pure ⟨rfl, .inr ⟨i, hi, hop, ?_⟩⟩
    split at hside <;> cases hside <;> simp_all [State.addExit]
  · exact .pure ⟨rfl, .inl ⟨Decidable.not_not.mp ‹_›, rfl⟩⟩

theorem yields_finish : Yields finish s fun e t => s.contexts = [] ∧
    t = s.resolveBranches.report (.finished s.resolveBranches.settings.source
      s.resolveBranches.blocks.size s.resolveBranches.insts.size) ∧
    e = ⟨t.insts.size, t.blocks.size, t.diagnostics.size⟩ := by
  refine .bind (.get (.check fun hc => .bind (.modify (.bind (.modify (.bind (.get (.pure ?_))))))))
  exact ⟨by simpa using hc, rfl, rfl⟩

end Builder

namespace Lowering

variable {w : Walk} {α : Type} {m : Lower α} {P : α → Walk → Prop}

theorem ends_within {E : Fault → Walk → Prop} (h : Ends m w (fun r => E r.fault) P) (site : Site) :
    Ends (within site m) w (fun r => E r.fault) P := by
  constructor <;> intro _ w' hw <;> unfold within at hw <;> split at hw <;> cases hw
  · exact h _ _ ‹_›
  · rename_i r hr
    have hfault := h.error r w' hr
    exact hfault

theorem yields_within (h : Yields m w P) (site : Site) : Yields (within site m) w P :=
  ends_within (E := fun _ _ => True) h site

theorem ends_located {E : Fault → Walk → Prop} (h : Ends m w (fun r => E r.fault) P)
    (pos : Position) (site : Site) : Ends (located pos site m) w (fun r => E r.fault) P := by
  constructor <;> intro _ w' hw <;> unfold located at hw <;> split at hw <;> cases hw
  · exact h _ _ ‹_›
  · rename_i r hr
    have hfault := h.error r w' hr
    exact hfault

theorem yields_located (h : Yields m w P) (pos : Position) (site : Site) :
    Yields (located pos site m) w P :=
  ends_located (E := fun _ _ => True) h pos site

theorem ends_callBuilder {E : Fault → Walk → Prop} {act : Build α}
    {trail : Builder.Error → List Site}
    (h : Ends act w.builder (fun e s => E (.builder e) { w with builder := s }) fun a s => P a
      { w with builder := s }) :
    Ends (callBuilder trail act) w (fun r => E r.fault) P := by
  constructor <;> intro _ w' hw <;> unfold callBuilder at hw <;> split at hw <;> cases hw
  · exact h _ _ ‹_›
  · exact h.error _ _ ‹_›

theorem yields_callBuilder {act : Build α} {trail : Builder.Error → List Site}
    (h : Yields act w.builder fun a s => P a { w with builder := s }) :
    Yields (callBuilder trail act) w P :=
  ends_callBuilder (E := fun _ _ => True) h

theorem yields_build {act : Build α} (h : Yields act w.builder fun a s => P a
      { w with builder := s }) :
    Yields (build act) w P :=
  yields_callBuilder h

theorem yields_current {P : BlockId → Walk → Prop} (h : P w.current w) : Yields current w P :=
  .bind (.get (.pure h))

theorem yields_continueIn {b : BlockId} {P : PUnit → Walk → Prop}
    (h : P ⟨⟩ { w with current := b }) :
    Yields (continueIn b) w P :=
  .modify h

theorem yields_emitHere (op : Opcode) {x y : Value} (hop : op ≠ .phi) :
    Yields (emitHere op x y) w fun v w' => ∃ s, w' = { w with builder := s } ∧
      ((op.isNumbered = true ∧ op ≠ .const ∧ (v, s) = w.builder.numberAtEnd w.current op x y {}) ∨
      (op = .const ∧ ∃ n id, x.src = .immediate n id ∧ (v, s) = w.builder.const n) ∨
      (op.isNumbered = false ∧ (v, s) = w.builder.emitEffect w.current op x y)) := by
  refine .bind (yields_current (.bind (yields_callBuilder (yields_emit.imp ?_))))
  rintro ⟨v, _⟩ s h
  refine .pure ⟨s, rfl, ?_⟩
  rcases h with h | h | h | h
  · exact .inl h
  · exact .inr (.inl h)
  · exact absurd h.1 hop
  · exact .inr (.inr ⟨h.1, h.2.2⟩)

theorem yields_checkScalar {scope : Scope} {name : String} {pos : Position}
    {P : PUnit → Walk → Prop} (h : w.builder.array? name = none → P ⟨⟩ w) :
    Yields (checkScalar scope name pos) w P := by
  unfold checkScalar
  refine .bind (.get (.check fun ha => ?_))
  have hp := h (by simpa using ha)
  split
  · exact .throw trivial
  · exact .pure hp

/-! ## Constructs -/

theorem yields_openIf {scope : Scope} {kind : JoinKind} {cond : Relation}
    {P : IfFrame → Walk → Prop} (h : Yields (lowerRelation scope cond) w fun branch w => ∀ doms,
      doms = w.builder.dominatorsOf w.current → ∀ r, r = (w.builder.openJoin kind).addBlock
        { kind := .thenPart, dominators := doms, parents := [w.current] } →
      P ⟨branch, w.current, doms⟩ ⟨r.2, r.1⟩) : Yields (openIf scope kind cond) w P := by
  refine .bind (yields_within (h.imp fun branch w₁ h => ?_) _)
  exact .bind (yields_current (.bind (yields_build (yields_dominators fun _ _ => .bind (yields_build
    (.modify (.bind (yields_build (yields_newBlock (.bind (yields_continueIn (.pure
      (h _ rfl _ rfl)))))))))))))

/-- The end of an `if`: a join is made, a branch goes there, and the variables are merged. -/
theorem yields_closeIf {join : BlockDraft} {branch : InstId} {slot : Int} {P : PUnit → Walk → Prop}
    (h : ∀ r, r = w.builder.addBlock join → ∀ i side c rest, r.2.inst? branch = some i →
      i.op.isBranch = true → Side.ofIndex? slot = some side →
      (r.2.defer branch side r.1).contexts = c :: rest →
      P ⟨⟩ ⟨(State.reconcileAll { r.2.defer branch side r.1 with contexts := rest } r.1
        c.touched).resolveBranches, r.1⟩) :
    Yields (closeIf join branch slot) w P := by
  refine .bind (yields_build (yields_newBlock (.bind (yields_build (yields_deferBranch.imp ?_)))))
  rintro _ t ⟨i, side, hi, hop, hside, -, rfl⟩
  refine .bind (yields_build (yields_reconcileIf.imp ?_))
  rintro _ t ⟨blk, c, rest, -, -, hc, rfl⟩
  exact .bind (yields_continueIn (yields_build (.modify (h _ rfl i side c rest hi hop hside hc))))

theorem yields_openElse {f : IfFrame} {P : ElseFrame → Walk → Prop}
    (h : Yields (emitHere .bra {} {}) w fun bra w₁ => ∀ r, r = w₁.builder.addBlock
        { kind := .elsePart, dominators := f.dominators, parents := [f.pre] } → ∀ i,
      r.2.inst? f.branch = some i → i.op.isBranch = true →
      P ⟨bra.id, w.current, f.dominators⟩ ⟨r.2.defer f.branch .y r.1, r.1⟩) :
    Yields (openElse f) w P := by
  refine .bind (yields_current (.bind (h.imp fun bra w₁ h => .bind (yields_build (yields_newBlock
    (.bind (yields_build (yields_deferBranch.imp ?_))))))))
  rintro _ t ⟨i, side, hi, hop, hside, -, rfl⟩
  cases hside
  exact .bind (yields_continueIn (.pure (h _ rfl i hi hop)))

theorem yields_openHeader {P : BlockId → Walk → Prop}
    (h : ∀ r, r = (w.builder.openJoin .loop).addBlock
      { kind := .loopHeader, join := .loop, dominators := w.builder.dominatorsOf w.current,
        parents := [w.current] } → P r.1 ⟨r.2, r.1⟩) : Yields openHeader w P :=
  .bind (yields_current (.bind (yields_build (yields_dominators fun _ _ => .bind (yields_build
    (.modify (.bind (yields_build (yields_newBlock (.bind (yields_continueIn (.pure
      (h _ rfl)))))))))))))

theorem yields_openBody {header : BlockId} {P : PUnit → Walk → Prop}
    (h : ∀ r, r = w.builder.addBlock
      { kind := .loopBody, dominators := w.builder.dominatorsOf header, parents := [header] } →
      P ⟨⟩ ⟨r.2, r.1⟩) : Yields (openBody header) w P :=
  .bind (yields_build (yields_dominators fun _ _ => .bind (yields_build (yields_newBlock
    (yields_continueIn (h _ rfl))))))

theorem yields_endBody {f : LoopFrame} {P : BlockId → Walk → Prop}
    (h : Yields (emitHere .bra {} {}) w fun bra w₁ => ∀ i, w₁.builder.inst? bra.id = some i →
      (∃ blk, w₁.builder.block? f.header = some blk) →
      P w.current { w₁ with builder := w₁.builder.defer bra.id .x f.header }) :
    Yields (endBody f) w P := by
  refine .bind (yields_current (.bind (h.imp fun bra w₁ h => .bind (yields_build
    (yields_deferBranch.imp ?_)))))
  rintro _ t ⟨i, side, hi, -, hside, hblk, rfl⟩
  cases hside
  exact .pure (h i hi hblk)

/-- The end of a loop: the variables are merged at the header, the loop is repaired, and the block
behind it is made. -/
theorem yields_reconcileLoop {s₀ : State} {header bottom : BlockId} {branch : InstId}
    {P : BlockId → State → Prop}
    (h : ∀ blk c rest s, s₀.block? header = some blk → blk.join = .loop → s₀.contexts = c :: rest →
      s = (State.link { s₀ with contexts := rest } bottom header).reconcileAll header c.touched →
      ∀ r, r = (s.repairLoop header).addExit header → ∀ t,
      (branch = 0 ∧ t = r.2 ∨ ∃ i, r.2.inst? branch = some i ∧ i.op.isBranch = true ∧
        t = r.2.defer branch (if i.op.isConditional then .y else .x) r.1) → P r.1 t) :
    Yields (reconcileLoop header bottom branch) s₀ P := by
  refine .bind (yields_mergeLoop.imp ?_)
  rintro _ s ⟨blk, c, rest, hblk, hjoin, -, hc, hs⟩
  refine .bind (.modify (yields_exitLoop.imp ?_))
  rintro exit t ⟨rfl, ht⟩
  exact h blk c rest s hblk hjoin hc hs _ rfl t ht

/-- A computation that is lowered went through its arrays, its statements and its end. -/
theorem lower_ok {settings : Settings} {c : Computation} {p : Program}
    (h : lower settings c = .ok p) : ∃ w₁ w₂ w₃ e,
      declareArrays c.arrays { builder := .new settings } = .ok ⟨⟩ w₁ ∧
      lowerStmts ⟨settings.strict, c.vars.map (·.name)⟩ c.body w₁ = .ok ⟨⟩ w₂ ∧
      endProgram w₂ = .ok e w₃ ∧ p = w₃.builder.program e := by
  unfold lower run at h
  split at h
  · cases h
  · rename_i w₁ h₁
    dsimp only at h
    split at h
    · cases h
    · rename_i w₂ h₂
      split at h
      · cases h
      · rename_i e w₃ h₃
        cases h
        have hbody := yields_within (P := fun u w => lowerStmts _ c.body w₁ = .ok u w)
          (.of_ok fun _ _ h => h) Site.program _ _ h₂
        exact ⟨w₁, w₂, w₃, e, h₁, hbody, h₃, rfl⟩

/-- A finished program holds all that the state does. -/
theorem yields_endProgram : Yields endProgram w fun e w' => ∃ v s,
    (v, s) = w.builder.emitEffect w.current .halt {} {} ∧ s.contexts = [] ∧
    w'.builder = s.resolveBranches.report (.finished s.resolveBranches.settings.source
      s.resolveBranches.blocks.size s.resolveBranches.insts.size) ∧
    (w'.builder.program e).insts = w'.builder.insts ∧
    (w'.builder.program e).blocks = w'.builder.blocks ∧
    (w'.builder.program e).versions = w'.builder.versions ∧
    (w'.builder.program e).diagnostics = w'.builder.diagnostics := by
  refine .bind (.discard ((yields_emitHere .halt nofun).imp ?_))
  rintro v w₁ ⟨s, rfl, ⟨hn, -⟩ | ⟨hc, -⟩ | ⟨-, hv⟩⟩
  · cases hn
  · cases hc
  · refine yields_build (yields_finish.imp ?_)
    rintro e t ⟨hc, ht, rfl⟩
    refine ⟨v, s, hv, hc, ht, ?_, ?_, rfl, ?_⟩ <;> simp [State.program]

end Lowering

end SingleAssignment
