import SingleAssignment.Proofs.Outcome
import SingleAssignment.Proofs.Reckoning
import SingleAssignment.Proofs.StepInvariant

/-!
# What a state keeps besides its code

Most of what a builder does changes its code: instructions, blocks and versions. `Aside` says of a
reading of the state, such as its settings or the branches that were deferred, that the code has no
part in it. All work on code leaves such a reading alone (`Aside.place`, `Aside.merge`,
`Aside.replay` and others), and so do the calls that only work on code (`Keeps`).
-/

namespace SingleAssignment.Builder

open Code

/-- The array but for its epoch. -/
def ArrayInfo.layout (a : ArrayInfo) : ArrayInfo :=
  { a with epoch := 0 }

/-- A reading of the state that the code has no part in, nor the open joins, the warnings and the
epochs of the arrays. Of the log it may read only which repairs were given up. -/
structure Aside {α : Type} (g : State → α) : Prop where
  insts : ∀ s l, g { s with insts := l } = g s
  blocks : ∀ s l, g { s with blocks := l } = g s
  versions : ∀ s l, g { s with versions := l } = g s
  contexts : ∀ s l, g { s with contexts := l } = g s
  diagnostics : ∀ s l, g { s with diagnostics := l } = g s
  epochs : ∀ s l, l.map ArrayInfo.layout = s.arrays.map ArrayInfo.layout →
    g { s with arrays := l } = g s
  report : ∀ s e, (∀ header rounds, e ≠ .repairUnsettled header rounds) → g (s.report e) = g s

namespace Aside

variable {α β : Type} {g : State → α}

/-! ## Placing and numbering -/

theorem modifyInst (h : Aside g) (s : State) (id : InstId) (f : Instruction → Instruction) :
    g (s.modifyInst id f) = g s := by
  unfold State.modifyInst
  split
  · exact h.insts s _
  · rfl

theorem modifyBlock (h : Aside g) (s : State) (b : BlockId) (f : Block → Block) :
    g (s.modifyBlock b f) = g s := by
  unfold State.modifyBlock
  split
  · exact h.blocks s _
  · rfl

theorem modifyVersion (h : Aside g) (s : State) (v : VersionId) (f : Version → Version) :
    g (s.modifyVersion v f) = g s :=
  h.versions s _

theorem foldl {f : State → β → State} (hf : ∀ s a, g (f s a) = g s) (l : List β) (s : State) :
    g (l.foldl f s) = g s := by
  induction l generalizing s with
  | nil => rfl
  | cons a l ih => rw [List.foldl_cons, ih, hf]

theorem insertNew (h : Aside g) (s : State) (b : BlockId) (d : State.Draft) (pos : Nat) :
    g (s.insertNew b d pos).2 = g s :=
  (h.modifyBlock _ _ _).trans (h.insts s _)

theorem place (h : Aside g) (s : State) (b : BlockId) (d : State.Draft) (pos : Nat) :
    g (s.place b d pos).2 = g s := by
  unfold State.place
  split
  · exact h.insertNew s b d pos
  · split
    · exact h.insertNew s b d pos
    · dsimp only
      split
      · simp only [State.overwrite, h.modifyBlock, h.modifyInst]
      · exact (h.insertNew _ b d pos).trans (h.modifyBlock _ _ _)

theorem record (h : Aside g) (s : State) (b : BlockId) (e : Entry) : g (s.record b e) = g s :=
  h.modifyBlock s b _

theorem const (h : Aside g) (s : State) (n : Int64) : g (s.const n).2 = g s := by
  unfold State.const
  dsimp only
  split
  · rfl
  · rw [h.record, h.place]

theorem placeNumbered (h : Aside g) (s : State) (b : BlockId) (d : State.Draft)
    (tag : MemoryTag) (pos : Nat) : g (s.placeNumbered b d tag pos).2 = g s := by
  simp only [State.placeNumbered]
  split
  · rw [h.modifyInst, h.record, h.place]
  · rw [h.record, h.place]

theorem number (h : Aside g) (s : State) (b : BlockId) (op : Opcode) (x y : Value) (tag : MemoryTag)
    (limit : Nat) : g (s.number b op x y tag limit).2 = g s := by
  unfold State.number
  split
  · rfl
  · exact h.placeNumbered s b _ tag limit

theorem numberAtEnd (h : Aside g) (s : State) (b : BlockId) (op : Opcode) (x y : Value)
    (tag : MemoryTag) : g (s.numberAtEnd b op x y tag).2 = g s :=
  h.number s b op x y tag _

theorem emitEffect (h : Aside g) (s : State) (b : BlockId) (op : Opcode) (x y : Value) :
    g (s.emitEffect b op x y).2 = g s :=
  h.place s b _ _

theorem emitPhi (h : Aside g) (s : State) (b : BlockId) (x y : Value) :
    g (s.emitPhi b x y).2 = g s :=
  (h.record _ _ _).trans (h.insertNew s b _ _)

/-! ## Variables and joins -/

theorem depend (h : Aside g) (s : State) (v : VersionId) : g (s.depend v) = g s := by
  unfold State.depend
  split
  · rfl
  · exact foldl (fun s id => h.modifyInst s id _) _ s

theorem addVersion (h : Aside g) (s : State) (v : Version) (pos : Nat) :
    g (s.addVersion v pos).2 = g s :=
  (h.modifyBlock _ _ _).trans (h.versions s _)

theorem assign (h : Aside g) (s : State) (b : BlockId) (name : String) (v : Value) :
    g (s.assign b name v).2 = g s := by
  have touched : ∀ s : State, g (s.touch name) = g s := fun s => h.contexts s _
  simp only [State.assign]
  split
  · exact (h.depend _ _).trans (h.modifyVersion s _ _)
  · exact (touched _).trans ((h.depend _ _).trans (h.addVersion s _ _))

theorem implicitZero (h : Aside g) (s : State) (b : BlockId) (name : String)
    (cause : Option ZeroCause) : g (s.implicitZero b name cause).2 = g s := by
  simp only [State.implicitZero]
  split
  · rw [h.depend, h.addVersion, h.const]
  · refine (h.report _ _ fun _ _ he => by cases he).trans ((h.diagnostics _ _).trans ?_)
    rw [h.depend, h.addVersion, h.const]

theorem readAtEnd (h : Aside g) (s : State) (b : BlockId) (name : String)
    (cause : Option ZeroCause) : g (s.readAtEnd b name cause).2 = g s := by
  unfold State.readAtEnd
  split
  · rfl
  · split
    · rfl
    · exact h.implicitZero s b name cause

theorem addHead (h : Aside g) (s : State) (j : BlockId) (name : String) (inst : InstId)
    (src : Provenance) : g (s.addHead j name inst src).2 = g s :=
  h.addVersion s _ _

theorem merge (h : Aside g) (s : State) (j : BlockId) (name : String) (x y : Value)
    (above : Option InstId) : g (s.merge j name x y above).2 = g s := by
  have retired : ∀ (s : State) (phi value : InstId), g (s.report (.phiRetired j name phi value)) = g
    s :=
    fun s _ _ => h.report s _ fun _ _ he => by cases he
  have placed : ∀ (s : State) (phi x y : InstId), g (s.report (.phiPlaced j name phi x y)) = g s :=
    fun s _ _ _ => h.report s _ fun _ _ he => by cases he
  have settle : ∀ head, g (s.settleHead j name head x).2 = g s := by
    intro head
    simp only [State.settleHead]
    cases (((s.versions[head]?).bind (·.phi)).filter s.isLive) <;> split <;>
      simp only [h.depend, h.modifyVersion, retired, h.modifyInst]
  have refill : ∀ head phi, g (s.refillPhi j name head phi x y).2 = g s := by
    intro head phi
    simp only [State.refillPhi]
    split <;> simp only [placed, h.depend, h.modifyVersion, h.modifyInst]
  have phi : ∀ head, g (s.newPhi j name head x y).2 = g s := by
    intro head
    cases head <;> simp only [State.newPhi, placed, h.depend, h.modifyVersion, h.addHead, h.emitPhi]
  unfold State.merge
  split
  · split
    · exact settle _
    · split
      · exact refill _ _
      · exact phi _
  · split
    · exact phi _
    · split
      · rfl
      · exact (h.depend _ _).trans (h.addHead s j name _ _)

theorem addJoinVar (h : Aside g) (s : State) (j : BlockId) (name : String) :
    g (s.addJoinVar j name) = g s :=
  h.modifyBlock s j _

theorem reconcile (h : Aside g) (s : State) (j : BlockId) (name : String) :
    g (s.reconcile j name) = g s := by
  simp only [State.reconcile, h.merge, h.readAtEnd, h.addJoinVar]

theorem openJoin (h : Aside g) (s : State) (kind : JoinKind) : g (s.openJoin kind) = g s := by
  refine (h.contexts { s with arrays := (s.openJoin kind).arrays } _).trans (h.epochs s _ ?_)
  unfold State.openJoin
  dsimp only
  split
  · simp [ArrayInfo.layout]
  · rfl

theorem link (h : Aside g) (s : State) (p c : BlockId) : g (s.link p c) = g s :=
  (h.modifyBlock _ _ _).trans (h.modifyBlock s _ _)

theorem addBlock (h : Aside g) (s : State) (d : BlockDraft) : g (s.addBlock d).2 = g s :=
  (foldl (fun s p => h.link s p _) _ _).trans (h.blocks s _)

/-! ## Arrays and branches -/

theorem consts (h : Aside g) (s : State) (ns : List Int64) : g (s.consts ns).2 = g s := by
  induction ns generalizing s with
  | nil => rfl
  | cons n ns ih => exact (ih _).trans (h.const s n)

/-- The computation of an address is work on code. -/
def reckoning (h : Aside g) (b : BlockId) : Reckoning b where
  Holds _ := True
  Leads s t := g t = g s
  Fit _ _ := True
  refl _ := rfl
  trans hl hl' := hl'.trans hl
  holds _ _ := trivial
  fit_mono _ _ _ := trivial
  fit_empty _ := trivial
  const _ n := ⟨h.const _ n, trivial⟩
  number _ _ _ _ _ _ _ := ⟨h.numberAtEnd .., trivial⟩

theorem elementOffset (h : Aside g) (s : State) (b : BlockId)
    (terms : List (Value × Int64 × Value)) : g (s.elementOffset b terms).2 = g s :=
  ((h.reckoning b).elementOffset trivial fun _ _ => ⟨trivial, trivial⟩).1

theorem elementAddress (h : Aside g) (s : State) (b : BlockId) (a : ArrayInfo)
    (indices : List Value) : g (s.elementAddress b a indices).2 = g s :=
  ((h.reckoning b).elementAddress trivial trivial fun _ _ => ⟨trivial, trivial⟩).1

theorem storeAt (h : Aside g) (s : State) (b : BlockId) (name : String) (epoch : Int)
    (v addr : Value) : g (s.storeAt b name epoch v addr) = g s := by
  refine (h.blocks _ _).trans ((h.epochs _ _ ?_).trans
    ((h.modifyInst _ _ _).trans (h.emitEffect s b _ v addr)))
  rw [List.map_map]
  refine List.map_congr_left fun a _ => ?_
  simp only [Function.comp_apply]
  split <;> rfl

theorem resolveBranches (h : Aside g) (s : State) : g s.resolveBranches = g s := by
  refine foldl (fun s d => ?_) _ s
  have entry : g (s.entryPoint d.target).2 = g s := by
    unfold State.entryPoint
    split
    · rfl
    · exact (h.modifyBlock _ _ _).trans (h.place s _ _ _)
  exact (h.report _ _ fun _ _ he => by cases he).trans ((h.modifyInst _ _ _).trans entry)

/-! ## Repairs -/

theorem rebind (h : Aside g) (r : Repair) (v : VersionId) (id : InstId) :
    g (r.rebind v id).base = g r.base := by
  unfold Repair.rebind
  split
  · rfl
  · dsimp only
    split
    · exact h.modifyVersion ..
    · exact (h.depend _ _).trans (h.modifyVersion ..)

/-- A repair is work on code: only where the rounds end is it told that they did not settle. -/
def stepInvariant (h : Aside g) (loop : List BlockId) : Repair.StepInvariant loop where
  Holds _ := True
  Leads r r' := g r'.base = g r.base
  Site _ _ _ := True
  Known _ _ := True
  Within _ := True
  Merges _ _ _ _ := True
  Own _ _ := True
  naming := .all
  refl _ := rfl
  trans hl hl' := hl'.trans hl
  holds _ _ := trivial
  site_mono _ _ _ := trivial
  site_weaken _ _ := trivial
  site_mark _ _ _ _ := trivial
  site_inst _ _ _ _ _ := trivial
  within _ _ _ _ _ := trivial
  remember _ _ := rfl
  forget _ := rfl
  const _ n := ⟨h.const _ n, trivial⟩
  number _ _ _ _ _ := ⟨h.number .., trivial⟩
  supersede _ _ _ _ _ _ _ _ _ := by
    simp only [Repair.supersede]
    split
    · rfl
    · exact h.placeNumbered ..
  setOperands _ _ _ _ _ _ _ := h.modifyInst ..
  merges _ _ _ _ _ _ := trivial
  merges_mono _ _ _ := trivial
  read _ _ _ := ⟨h.readAtEnd .., trivial, fun _ _ => trivial⟩
  merge _ _ _ _ _ _ _ := (congrArg g (Repair.base_note ..)).trans (h.merge ..)
  own _ _ _ _ := trivial
  rebind _ _ _ := h.rebind ..
  outside _ _ _ _ _ _ _ _ := h.rebind ..
  retire _ _ := h.modifyInst ..

theorem round (h : Aside g) (loop : List BlockId) (r : Repair) :
    g (Repair.round loop r).2.base = g r.base :=
  (h.stepInvariant loop).round trivial

theorem replay (h : Aside g) (e : Enumeration) (loop : List BlockId) (r : Repair) :
    g (r.replay e loop).base = g r.base :=
  (h.stepInvariant loop).replay e trivial

/-- A repair is work on code where also a repair that is given up is not read from the log. -/
theorem repairLoop (h : Aside g) (hreport : ∀ s e, g (s.report e) = g s) (s : State)
    (header : BlockId) : g (s.repairLoop header) = g s :=
  (h.stepInvariant (s.reach header)).run (r := { base := s }) (fun _ e _ => hreport _ e) .listed
    header trivial

end Aside

/-! ## Calls that only work on code -/

/-- The state that a step ends in, whether it fails or not. -/
def endState {ε σ α : Type} : EStateM.Result ε σ α → σ
  | .ok _ s | .error _ s => s

/-- A step of the builder that leaves a reading of the state alone, also where it fails. -/
def Keeps {α γ : Type} (g : State → γ) (m : Build α) : Prop :=
  ∀ s, Ends m s (fun _ t => g t = g s) fun _ t => g t = g s

namespace Keeps

variable {α β γ : Type} {g : State → γ}

theorem endState_eq {m : Build α} (h : Keeps g m) (s : State) : g (endState (m s)) = g s := by
  cases hm : m s with
  | ok a t => exact (h s).ok a t hm
  | error e t => exact (h s).error e t hm

theorem pure (a : α) : Keeps g (Pure.pure a) := fun _ => .pure rfl

theorem throw (e : Error) : Keeps g (throw e : Build α) := fun _ => .throw rfl

theorem get : Keeps g (MonadState.get : Build State) := fun _ => .get rfl

theorem modify {f : State → State} (h : ∀ s, g (f s) = g s) : Keeps g (modify f : Build PUnit) :=
  fun s => .modify (h s)

theorem step {f : State → α × State} (h : ∀ s, g (f s).2 = g s) : Keeps g (Build.step f) :=
  fun s => ends_step (h s)

theorem bind {m : Build α} {f : α → Build β} (hm : Keeps g m) (hf : ∀ a, Keeps g (f a)) :
    Keeps g (m >>= f) :=
  fun s => .bind ((hm s).imp fun a t ht => ht ▸ hf a t)

theorem discard {m : Build α} (h : Keeps g m) : Keeps g (Functor.discard m) :=
  fun s => .discard (h s)

/-- A check in front of a step. -/
theorem guard {c : Prop} [Decidable c] {e : Error} {rest : PUnit → Build α}
    (h : ∀ u, Keeps g (rest u)) : Keeps g (if c then MonadExcept.throw e >>= rest else rest ⟨⟩) :=
  fun s => .guard (fun _ => rfl) fun _ => h ⟨⟩ s

theorem forM {f : α → Build PUnit} (h : ∀ a, Keeps g (f a)) (l : List α) : Keeps g (l.forM f) := by
  induction l with
  | nil => exact .pure _
  | cons a l ih => exact bind (h a) fun _ => ih

theorem block (b : BlockId) : Keeps g (Build.block b) := by
  unfold Build.block
  refine bind get fun s => ?_
  split
  · exact .pure _
  · exact .throw _

theorem instruction (id : InstId) : Keeps g (Build.instruction id) := by
  unfold Build.instruction
  refine bind get fun s => ?_
  split
  · exact .pure _
  · exact .throw _

theorem array (name : String) : Keeps g (array name) := by
  refine bind get fun s => ?_
  split
  · exact .pure _
  · exact .throw _

theorem accessedArray (b : BlockId) (name : String) : Keeps g (accessedArray b name) :=
  .guard fun _ => .bind (.block b) fun _ => .array name

theorem dominators (b : BlockId) : Keeps g (dominators b) :=
  .bind (.block b) fun _ => .pure _

end Keeps

namespace Aside

variable {γ : Type} {g : State → γ}

theorem keeps_const (h : Aside g) (n : Int64) : Keeps g (Builder.const n) :=
  .step fun s => h.const s n

theorem keeps_emit (h : Aside g) (b : BlockId) (op : Opcode) (x y : Value) :
    Keeps g (emit b op x y) := by
  refine .bind (.block b) fun _ => ?_
  split
  · split
    · exact .bind (h.keeps_const _) fun _ => .pure _
    · exact .throw _
  · exact .bind (.step fun s => h.emitPhi s b x y) fun _ => .pure _
  · split
    · exact .step fun s => h.number s _ _ _ _ _ _
    · exact .bind (.step fun s => h.emitEffect s b _ x y) fun _ => .pure _

theorem keeps_assign (h : Aside g) (b : BlockId) (name : String) (v : Value) :
    Keeps g (Builder.assign b name v) := by
  refine .guard fun _ => .bind (.block b) fun _ => .bind .get fun s => ?_
  split
  · exact .throw _
  · exact .step fun s => h.assign s b name v

theorem keeps_lookup (h : Aside g) (b : BlockId) (name : String) : Keeps g (lookup b name) :=
  .guard fun _ => .bind (.block b) fun _ => .step fun s => h.readAtEnd s _ _ _

theorem keeps_address (h : Aside g) (b : BlockId) (a : ArrayInfo) (indices : List Value) :
    Keeps g (address b a indices) :=
  .guard fun _ => .step fun s => h.elementAddress s b a indices

theorem keeps_loadElement (h : Aside g) (b : BlockId) (name : String) (indices : List Value) :
    Keeps g (loadElement b name indices) :=
  .bind (.accessedArray b name) fun a => .bind (h.keeps_address b a indices) fun _ =>
    .step fun s => h.numberAtEnd s _ _ _ _ _

theorem keeps_storeElement (h : Aside g) (b : BlockId) (name : String) (indices : List Value)
    (v : Value) : Keeps g (storeElement b name indices v) :=
  .bind (.accessedArray b name) fun a => .bind (.instruction _) fun _ =>
    .bind (h.keeps_address b a indices) fun addr => .modify fun s => h.storeAt s b name
      a.epoch v addr

theorem keeps_newBlock (h : Aside g) (d : BlockDraft) : Keeps g (newBlock d) := by
  have known : ∀ l : List BlockId, Keeps g (l.forM fun b => discard (Build.block b)) :=
    .forM fun b => .bind (.block b) fun _ => .pure _
  exact .guard fun _ => .bind (known _) fun _ => .bind (known _) fun _ => .step
    fun s => h.addBlock s d

theorem keeps_closeJoin (h : Aside g) (loop : Bool) : Keeps g (closeJoin loop) := by
  refine .bind .get fun s => ?_
  split
  · exact .throw _
  · exact .guard fun _ => .bind (.modify fun s => h.contexts s _) fun _ => .pure _

theorem keeps_reconcileIf (h : Aside g) (join : BlockId) : Keeps g (reconcileIf join) :=
  .bind (.block join) fun _ => .guard fun _ => .guard fun _ =>
    .bind (h.keeps_closeJoin _) fun touched => .forM (fun name => .modify fun s =>
      h.reconcile s join name) touched

theorem keeps_resolveBranches (h : Aside g) : Keeps g Builder.resolveBranches :=
  .modify fun s => h.resolveBranches s

theorem keeps_mergeLoop (h : Aside g) (header bottom : BlockId) :
    Keeps g (mergeLoop header bottom) :=
  .bind (.block header) fun _ => .bind (.block bottom) fun _ => .guard fun _ =>
    .bind (h.keeps_closeJoin _) fun touched =>
    .bind (.modify fun s => h.link s bottom header) fun _ => .bind .get fun _ =>
    .guard fun _ => .forM (fun name => .modify fun s => h.reconcile s header name) touched

theorem keeps_finish (h : Aside g) : Keeps g finish :=
  .bind .get fun _ => .guard fun _ => .bind h.keeps_resolveBranches fun _ =>
    .bind (.modify fun s => h.report s _ fun _ _ he => by cases he) fun _ => .bind .get
      fun _ => .pure _

end Aside

end SingleAssignment.Builder
