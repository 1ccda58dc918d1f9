import SingleAssignment.Proofs.Aside
import SingleAssignment.Proofs.Seclusion

/-!
# Repairs that settle

A repair runs in rounds until a round changes no join, but at most twice the number of blocks of the
loop and four. `State.settles` says that a quiet round comes within that bound. A repair that does
not settle is given up with the joins still changing, and says so in the log: `givenUp` reads the
log, and the repairs it tells are exactly those of `Lowering.repairs` that do not settle.

A repair settles in its first round if no variable is merged in the loop (`Repairable.settles`), and
so a loop that assigns no variable is never given up (`untouched_settles`).
-/

namespace SingleAssignment

open Code List

namespace Builder

/-- Whether one of the next `n` rounds of a repair changes no join. -/
def Repair.settles (order : List BlockId) : Nat → Repair → Bool
  | 0, _ => false
  | n + 1, r => !(r.round order).1 || settles order n (r.round order).2

namespace State

/-- The most rounds that the repair of a loop makes. -/
def roundLimit (s : State) (header : BlockId) : Nat :=
  2 * (s.reach header).length + 4

/-- Whether the repair of a loop comes to a round that changes no join before it is given up. -/
def settles (s : State) (header : BlockId) : Bool :=
  Repair.settles (s.reach header) (s.roundLimit header) { base := s }

end State

/-- The header and the number of rounds of a repair that an event tells to be given up. -/
def Event.givenUp? : Event → Option (BlockId × Nat)
  | .repairUnsettled header rounds => some (header, rounds)
  | _ => none

namespace State

/-- The repairs that were given up, as the log tells. -/
def givenUp (s : State) : List (BlockId × Nat) :=
  s.log.toList.filterMap Event.givenUp?

theorem givenUp_report (s : State) (e : Event) :
    (s.report e).givenUp = s.givenUp ++ e.givenUp?.toList := by
  cases h : e.givenUp? <;> simp [givenUp, report, filterMap_append, h]

end State

/-- Work on code tells of no repair that is given up. -/
theorem aside_givenUp : Aside State.givenUp where
  insts _ _ := rfl
  blocks _ _ := rfl
  versions _ _ := rfl
  contexts _ _ := rfl
  diagnostics _ _ := rfl
  epochs _ _ _ := rfl
  report s e he := by
    rw [State.givenUp_report]
    cases e with
    | repairUnsettled header rounds => exact absurd rfl (he header rounds)
    | _ => exact append_nil _

/-! ## Repairs -/

namespace Repair

variable (loop : List BlockId)

/-- The rounds tell that the repair is given up if none of them is quiet. -/
theorem givenUp_rounds (header : BlockId) (left done : Nat) (r : Repair) (h : 0 < left) :
    (rounds header loop left done r).2.base.givenUp =
      r.base.givenUp ++ if settles loop left r then [] else [(header, done + left)] := by
  induction left generalizing done r with
  | zero => omega
  | succ left ih =>
    have hround := aside_givenUp.round loop r
    simp only [rounds, settles]
    by_cases hc : (round loop r).1 = true
    · by_cases hl : left = 0
      · subst hl
        simpa [hc, State.givenUp_report, Event.givenUp?, settles] using hround
      · simp only [hc, hl, Bool.not_true, Bool.false_eq_true, if_false, Bool.false_or]
        rw [ih (done + 1) _ (Nat.pos_of_ne_zero hl), hround, Nat.add_right_comm, Nat.add_assoc]
    · simpa [hc] using hround

end Repair

/-- A repair tells that it was given up, with the number of its rounds, unless it settles. -/
theorem State.givenUp_repairLoop (s : State) (header : BlockId) :
    (s.repairLoop header).givenUp =
      s.givenUp ++ if s.settles header then [] else [(header, s.roundLimit header)] := by
  have rounds := Repair.givenUp_rounds (s.reach header) header (s.roundLimit header) 0 { base := s }
    (Nat.succ_pos _)
  rw [Nat.zero_add] at rounds
  unfold repairLoop repairLoopIn Repair.run
  simp only [State.givenUp_report, Event.givenUp?, Option.toList_none, append_nil]
  exact (aside_givenUp.replay ..).trans rounds

/-- Steps that each change nothing change nothing. -/
theorem Repair.sweep_eq {α : Type} {step : Repair → α → Bool × Repair} {l : List α} {r : Repair}
    (h : ∀ a ∈ l, step r a = (false, r)) : sweep step l r = (false, r) := by
  induction l with
  | nil => rfl
  | cons a l ih =>
    obtain ⟨ha, hl⟩ := forall_mem_cons.mp h
    simp only [sweep, ha, ih hl, Bool.or_self]

/-- A repair settles in its first round if no variable is merged in the loop: replaying code adds
none. -/
theorem Repairable.settles {floor header : BlockId} {s : State} (h : Repairable floor header s)
    (hnone : ∀ j, header ≤ j → ∀ name, name ∉ s.view.joinVars j) : s.settles header = true := by
  have hW : Wanted header (fun _ => False) s :=
    ⟨h.root, fun j name hname hj => absurd hname (hnone j hj name),
      fun j name hname hj => absurd hname (hnone j hj name), fun _ _ hw => hw⟩
  have hmends := (Repair.mending _ h.region).refresh ⟨h.consistent hW, h.reached⟩
  have hquiet : ∀ j ∈ s.reach header, Repair.reconcileBlock (s.reach header)
      (Repair.refresh (s.reach header) { base := s }) j = (false, Repair.refresh (s.reach header)
      { base := s }) := by
    intro j hj
    unfold Repair.reconcileBlock
    split
    · rfl
    · rename_i blk hblk
      have hvars : blk.joinVars.toList = [] := by
        refine eq_nil_iff_forall_not_mem.mpr fun name hname => ?_
        have hname : name ∈ (Repair.refresh (s.reach header) { base := s }).base.view.joinVars
          j := by
          simpa [State.view, hblk] using hname
        rcases Changes.mem_joinVars hmends.changes h.laid.timelines hname with hold | hwant
        · exact hnone j (h.region.loop_le j hj) name hold
        · exact hwant
      rw [hvars]
      exact ite_self _
  have hround : (Repair.round (s.reach header) { base := s }).1 = false :=
    congrArg Prod.fst (Repair.sweep_eq hquiet)
  unfold State.settles State.roundLimit
  rw [Repair.settles, hround]
  rfl

/-! ## Calls that tell of no repair -/

/-- A step of the builder that tells of no repair. -/
def Quiet {α : Type} (m : Build α) : Prop :=
  Keeps State.givenUp m

theorem quiet_declareArray (name : String) (dims : List Int64) :
    Quiet (declareArray name dims) := by
  unfold Quiet declareArray
  refine .guard (c := dims.isEmpty = true) fun _ => ?_
  split
  · exact .throw _
  · exact .bind .get fun s => .guard fun _ => .step fun s =>
      (aside_givenUp.consts _ _).trans (aside_givenUp.const _ _)

theorem quiet_deferBranch (id : InstId) (slot : Int) (target : BlockId) :
    Quiet (deferBranch id slot target) := by
  refine .bind (.instruction id) fun i => .guard fun _ => ?_
  split
  · exact .throw _
  · exact .bind (.block target) fun _ => .modify fun s => aside_givenUp.modifyInst s id _

theorem quiet_exitLoop (header : BlockId) (exitBranch : InstId) :
    Quiet (exitLoop header exitBranch) := by
  refine .bind .get fun s => .bind (aside_givenUp.keeps_newBlock _) fun exit => ?_
  split
  · exact .bind (.instruction _) fun i => .bind (quiet_deferBranch _ _ _) fun _ => .pure _
  · exact .pure _

end Builder

/-! ## Lowering -/

namespace Lowering

open Builder Source

/-- The header and the number of rounds of a repair that is given up. -/
def Moment.givenUp? : Moment → Option (BlockId × Nat)
  | .load .. => none
  | .repair s header => if s.settles header then none else some (header, s.roundLimit header)

/-- Of the moments that a step of lowering comes to, the log tells the repairs that are given up. -/
def Tells {α : Type} (m : Lower α) (ms : Walk → List Moment) : Prop :=
  ∀ w, (endState (m w)).builder.givenUp = w.builder.givenUp ++ (ms w).filterMap Moment.givenUp?

namespace Tells

variable {α β : Type} {ms : Walk → List Moment}

/-- A step without moments. -/
theorem none {m : Lower α} (h : ∀ w, (endState (m w)).builder.givenUp = w.builder.givenUp) :
    Tells m fun _ => [] := by
  intro w
  rw [h w, filterMap_nil, append_nil]

theorem pure (a : α) : Tells (Pure.pure a) fun _ => [] :=
  .none fun _ => rfl

theorem throw (r : Report) : Tells (throw r : Lower α) fun _ => [] :=
  .none fun _ => rfl

theorem get : Tells (MonadState.get : Lower Walk) fun _ => [] :=
  .none fun _ => rfl

theorem bind {m : Lower α} {f : α → Lower β} {ns : α → Walk → List Moment} (hm : Tells m ms)
    (hf : ∀ a, Tells (f a) (ns a)) : Tells (m >>= f) fun w => ms w ++ follow (m w) ns := by
  intro w
  have hw := hm w
  change (endState (EStateM.bind m f w)).builder.givenUp = _
  unfold EStateM.bind
  cases h : m w with
  | ok a w' =>
    rw [h] at hw
    change w'.builder.givenUp = _ at hw
    simp only [h, follow, filterMap_append, hf a w', hw, append_assoc]
  | error r w' =>
    rw [h] at hw
    simp only [h, follow, append_nil]
    exact hw

/-- A step without moments in front of another. -/
theorem silent_bind {m : Lower α} {f : α → Lower β} {ns : α → Walk → List Moment}
    (hm : Tells m fun _ => []) (hf : ∀ a, Tells (f a) (ns a)) :
    Tells (m >>= f) fun w => follow (m w) ns :=
  hm.bind hf

/-- A step without moments behind another. -/
theorem bind_silent {m : Lower α} {f : α → Lower β} (hm : Tells m ms)
    (hf : ∀ a, Tells (f a) fun _ => []) : Tells (m >>= f) ms := by
  have h := hm.bind hf
  have follow_nil : ∀ w, follow (m w) (fun _ _ => []) = ([] : List Moment) := by
    intro w
    unfold follow
    split <;> rfl
  simpa only [follow_nil, append_nil] using h

theorem within {m : Lower α} (h : Tells m ms) (site : Site) : Tells (within site m) ms := by
  intro w
  have hw := h w
  unfold Lowering.within
  cases hm : m w <;> rw [hm] at hw <;> exact hw

theorem located {m : Lower α} (h : Tells m ms) (pos : Position) (site : Site) :
    Tells (located pos site m) ms := by
  intro w
  have hw := h w
  unfold Lowering.located
  cases hm : m w <;> rw [hm] at hw <;> exact hw

theorem callBuilder {act : Build α} (h : Quiet act) (trail : Builder.Error → List Site) :
    Tells (callBuilder trail act) fun _ => [] := by
  refine .none fun w => ?_
  have hs := h.endState_eq w.builder
  unfold Lowering.callBuilder
  cases hact : act w.builder <;> rw [hact] at hs <;> exact hs

theorem build {act : Build α} (h : Quiet act) : Tells (build act) fun _ => [] :=
  callBuilder h _

theorem current : Tells current fun _ => [] :=
  .none fun _ => rfl

theorem continueIn (b : BlockId) : Tells (continueIn b) fun _ => [] :=
  .none fun _ => rfl

theorem emitHere (op : Opcode) (x y : Value) : Tells (emitHere op x y) fun _ => [] :=
  current.bind_silent fun b =>
    (callBuilder (aside_givenUp.keeps_emit b op x y) _).bind_silent fun _ => .pure _

end Tells

@[simp] theorem follow_within {α : Type} (site : Site) (m : Lower α) (w : Walk)
    (next : α → Walk → List Moment) : follow (within site m w) next = follow (m w) next := by
  unfold within
  cases m w <;> rfl

theorem follow_bind {α β : Type} (m : Lower α) (f : α → Lower β) (w : Walk)
    (next : β → Walk → List Moment) :
    follow ((m >>= f) w) next = follow (m w) fun a w => follow (f a w) next := by
  change follow (EStateM.bind m f w) next = _
  unfold EStateM.bind
  cases m w <;> rfl

theorem tells_checkScalar (scope : Scope) (name : String) (pos : Position) :
    Tells (checkScalar scope name pos) fun _ => [] := by
  refine Tells.get.bind_silent fun w => ?_
  dsimp only
  split
  · exact (Tells.throw _).bind_silent fun _ => by
      split
      · exact .throw _
      · exact .pure _
  · split
    · exact .throw _
    · exact .pure _

theorem tells_lowerCall (fn : Builtin) (pos : Position) {argument : Lower Value}
    {ms : Walk → List Moment} (h : Tells argument ms) :
    Tells (lowerCall fn pos argument) fun w => if fn = .outputNum then ms w else [] := by
  cases fn with
  | inputNum => exact .emitHere _ _ _
  | outputNum => exact h.bind_silent fun v => .emitHere _ _ _
  | outputNewLine => exact .emitHere _ _ _
  | other n => exact .throw _

mutual

theorem tells_lowerExpr (scope : Scope) : ∀ e : Expr,
    Tells (lowerExpr scope e) (exprMoments scope e)
  | .num n => by
    unfold lowerExpr exprMoments
    exact .build (aside_givenUp.keeps_const n)
  | .element name [] pos => by
    unfold lowerExpr exprMoments
    exact ((tells_checkScalar scope name pos).within _).bind_silent fun _ =>
      Tells.current.bind_silent fun b => .build (aside_givenUp.keeps_lookup b name)
  | .element name (e :: es) pos => by
    unfold lowerExpr exprMoments
    have load : ∀ indices, Tells (do
        let b ← current
        located pos .elementPosition <| within .loading <|
          callBuilder (accessTrail .loadAccess .loadAddress) (loadElement b name indices))
        fun w => [.load w name indices] := fun indices =>
      Tells.current.bind_silent fun b =>
        ((Tells.callBuilder (aside_givenUp.keeps_loadElement b name indices) _).within _).located _
          _
    have h := ((tells_lowerIndices scope (e :: es)).within .elementIndices).bind load
    simpa only [follow_within] using h
  | .binary op left right => by
    unfold lowerExpr exprMoments
    have h := ((tells_lowerExpr scope left).within .leftOperand).bind fun x =>
      ((tells_lowerExpr scope right).within .rightOperand).bind_silent fun y =>
        (Tells.emitHere (operation op) x y).within .operation
    simpa only [follow_within] using h
  | .call fn args pos => by
    unfold lowerExpr exprMoments
    exact (tells_lowerCall fn pos (tells_lowerArgument scope args)).within _
  | .hole => by
    unfold lowerExpr exprMoments
    exact .throw _

theorem tells_lowerIndices (scope : Scope) : ∀ es : List Expr,
    Tells (lowerIndices scope es) (indicesMoments scope es)
  | [] => by
    unfold lowerIndices indicesMoments
    exact .pure _
  | e :: es => by
    unfold lowerIndices indicesMoments
    have h := ((tells_lowerExpr scope e).within .index).bind fun v =>
      (tells_lowerIndices scope es).bind_silent fun vs => .pure (v :: vs)
    simpa only [follow_within] using h

theorem tells_lowerArgument (scope : Scope) : ∀ es : List Expr,
    Tells (lowerArgument scope es) (argumentMoments scope es)
  | [] => by
    unfold lowerArgument argumentMoments
    exact .throw _
  | e :: _ => by
    unfold lowerArgument argumentMoments
    exact (tells_lowerExpr scope e).within _

end

theorem tells_lowerRelation (scope : Scope) (r : Relation) :
    Tells (lowerRelation scope r) (relationMoments scope r) := by
  have h := ((tells_lowerExpr scope r.left).within .leftComparand).bind fun x =>
    ((tells_lowerExpr scope r.right).within .rightComparand).bind_silent fun y =>
      (Tells.emitHere .cmp x y).bind_silent fun c =>
        ((Tells.emitHere (negated r.op) c {}).within .conditionBranch).bind_silent fun br =>
          .pure br.id
  simp only [follow_within] at h
  exact h

theorem tells_lowerAssign (scope : Scope) (d : Designator) (v : Value) :
    Tells (lowerAssign scope d v) (indicesMoments scope d.indices) := by
  unfold lowerAssign
  cases d.indices with
  | nil =>
    unfold indicesMoments
    exact ((tells_checkScalar _ _ _).within _).bind_silent fun _ => Tells.current.bind_silent
      fun b => (Tells.build (aside_givenUp.keeps_assign b d.name v)).bind_silent fun _ => .pure _
  | cons e es =>
    exact ((tells_lowerIndices scope (e :: es)).within _).bind_silent fun indices =>
      Tells.current.bind_silent fun b =>
        ((Tells.callBuilder (aside_givenUp.keeps_storeElement b d.name indices v) _).within
          _).located _ _

theorem tells_closeIf (join : BlockDraft) (branch : InstId) (slot : Int) :
    Tells (closeIf join branch slot) fun _ => [] :=
  (Tells.build (aside_givenUp.keeps_newBlock join)).bind_silent fun j =>
    (Tells.build (quiet_deferBranch branch slot j)).bind_silent fun _ =>
    (Tells.build (aside_givenUp.keeps_reconcileIf j)).bind_silent fun _ =>
    (Tells.continueIn j).bind_silent fun _ => .build aside_givenUp.keeps_resolveBranches

theorem tells_openIf (scope : Scope) (kind : JoinKind) (cond : Relation) :
    Tells (openIf scope kind cond) (relationMoments scope cond) :=
  ((tells_lowerRelation scope cond).within _).bind_silent fun _ =>
    Tells.current.bind_silent fun pre =>
    (Tells.build (.dominators pre)).bind_silent fun _ =>
    (Tells.build (.modify fun s => aside_givenUp.openJoin s kind)).bind_silent fun _ =>
    (Tells.build (aside_givenUp.keeps_newBlock _)).bind_silent fun thenTop =>
    (Tells.continueIn thenTop).bind_silent fun _ => .pure _

theorem tells_closeIfThen (f : IfFrame) : Tells (closeIfThen f) fun _ => [] :=
  Tells.current.bind_silent fun _ => tells_closeIf _ _ _

theorem tells_openElse (f : IfFrame) : Tells (openElse f) fun _ => [] :=
  Tells.current.bind_silent fun _ => (Tells.emitHere .bra {} {}).bind_silent fun _ =>
    (Tells.build (aside_givenUp.keeps_newBlock _)).bind_silent fun elseTop =>
    (Tells.build (quiet_deferBranch _ _ _)).bind_silent fun _ =>
    (Tells.continueIn elseTop).bind_silent fun _ => .pure _

theorem tells_closeIfElse (f : ElseFrame) : Tells (closeIfElse f) fun _ => [] :=
  Tells.current.bind_silent fun _ => tells_closeIf _ _ _

theorem tells_openHeader : Tells openHeader fun _ => [] :=
  Tells.current.bind_silent fun pre =>
    (Tells.build (.dominators pre)).bind_silent fun _ =>
    (Tells.build (.modify fun s => aside_givenUp.openJoin s .loop)).bind_silent fun _ =>
    (Tells.build (aside_givenUp.keeps_newBlock _)).bind_silent fun header =>
    (Tells.continueIn header).bind_silent fun _ => .pure _

theorem tells_openLoop (scope : Scope) (cond : Relation) :
    Tells (openLoop scope cond) fun w =>
      follow (openHeader w) fun _ w => relationMoments scope cond w :=
  tells_openHeader.silent_bind fun header =>
    ((tells_lowerRelation scope cond).within _).bind_silent fun _ =>
    Tells.bind_silent ((Tells.build (.dominators header)).bind_silent fun _ =>
      (Tells.build (aside_givenUp.keeps_newBlock _)).bind_silent fun body => .continueIn body)
        fun _ => .pure _

theorem tells_endBody (f : LoopFrame) : Tells (endBody f) fun _ => [] :=
  Tells.current.bind_silent fun bottom => (Tells.emitHere .bra {} {}).bind_silent fun _ =>
    (Tells.build (quiet_deferBranch _ _ _)).bind_silent fun _ => .pure bottom

/-- Repairing a loop is the one step that may tell of a repair. -/
theorem tells_repairLoop (header : BlockId) :
    Tells (build (modify (·.repairLoop header))) fun w => [.repair w.builder header] := by
  intro w
  refine (State.givenUp_repairLoop w.builder header).trans (congrArg _ ?_)
  by_cases h : w.builder.settles header = true <;> simp [Moment.givenUp?, h]

theorem build_bind {α β : Type} (m : Build α) (f : α → Build β) :
    build (m >>= f) = build m >>= fun a => build (f a) := by
  funext w
  change build (EStateM.bind m f) w = EStateM.bind (build m) (fun a => build (f a)) w
  unfold build callBuilder EStateM.bind
  dsimp only
  cases m w.builder <;> rfl

theorem tells_closeLoop (f : LoopFrame) (bottom : BlockId) :
    Tells (closeLoop f bottom) fun w =>
      follow (build (mergeLoop f.header bottom) w) fun _ w => [.repair w.builder f.header] := by
  unfold closeLoop reconcileLoop reconcileLoopIn
  rw [build_bind, bind_assoc]
  refine (Tells.build (aside_givenUp.keeps_mergeLoop _ _)).silent_bind fun _ => ?_
  rw [build_bind, bind_assoc]
  exact (tells_repairLoop f.header).bind_silent fun _ =>
    (Tells.build (quiet_exitLoop _ _)).bind_silent fun exit =>
    (Tells.continueIn exit).bind_silent fun _ => .build aside_givenUp.keeps_resolveBranches

mutual

theorem tells_lowerStmt (scope : Scope) : ∀ s : Stmt,
    Tells (lowerStmt scope s) (stmtMoments scope s)
  | .assign target value _ => by
    unfold lowerStmt stmtMoments
    have h := ((tells_lowerExpr scope value).within .assignedValue).bind fun v =>
      (tells_lowerAssign scope target v).within .assignment
    simpa only [follow_within] using h
  | .call fn args pos => by
    unfold lowerStmt stmtMoments
    exact ((tells_lowerCall fn pos (tells_lowerArgument scope args)).within _).bind_silent
      fun _ => .pure _
  | .ifThen cond thenPart _ => by
    unfold lowerStmt stmtMoments lowerIfThen
    exact ((tells_openIf scope .ifThen cond).bind fun f =>
      ((tells_lowerStmts scope thenPart).within .thenPart).bind_silent fun _ =>
        tells_closeIfThen f).within _
  | .ifElse cond thenPart elsePart _ => by
    unfold lowerStmt stmtMoments lowerIfElse
    have h := ((tells_openIf scope .ifElse cond).bind fun f =>
      ((tells_lowerStmts scope thenPart).within .thenPart).bind fun _ =>
        (tells_openElse f).silent_bind fun g =>
          ((tells_lowerStmts scope elsePart).within .elsePart).bind_silent fun _ =>
            tells_closeIfElse g).within .ifStatement
    simpa only [follow_within, follow_bind] using h
  | .loop cond body _ => by
    unfold lowerStmt stmtMoments lowerLoop
    have h := ((tells_openLoop scope cond).bind fun f =>
      ((tells_lowerStmts scope body).within .loopBody).bind fun _ =>
        (tells_endBody f).silent_bind fun bottom => tells_closeLoop f bottom).within .loopStatement
    simpa only [follow_within, follow_bind] using h
  | .hole => by
    unfold lowerStmt stmtMoments
    exact .throw _

theorem tells_lowerStmts (scope : Scope) : ∀ ss : List Stmt,
    Tells (lowerStmts scope ss) (stmtsMoments scope ss)
  | [] => by
    unfold lowerStmts stmtsMoments
    exact .pure _
  | s :: ss => by
    unfold lowerStmts stmtsMoments
    have h := ((tells_lowerStmt scope s).within .sequence).bind fun _ => tells_lowerStmts scope ss
    simpa only [follow_within] using h

end

theorem tells_declareArrays (ds : List ArrayDecl) : Tells (declareArrays ds) fun _ => [] := by
  induction ds with
  | nil => exact .pure _
  | cons d ds ih =>
    exact Tells.bind_silent (((Tells.build (quiet_declareArray d.name d.dims)).bind_silent
      fun _ => .pure _).located _ _) fun _ => ih

theorem tells_endProgram : Tells endProgram fun _ => [] :=
  Tells.bind_silent ((Tells.emitHere .halt {} {}).bind_silent fun _ => .pure _) fun _ =>
    .build aside_givenUp.keeps_finish

/-- The header and the number of rounds of a repair that an event tells to be given up. -/
def Event.givenUp? : Event → Option (BlockId × Nat)
  | .builder e => e.givenUp?
  | _ => none

theorem filterMap_givenUp_log (started : Event) (h : started.givenUp? = none) (s : State) :
    (started :: s.log.toList.map Event.builder).filterMap Event.givenUp? = s.givenUp := by
  rw [filterMap_cons_none h, filterMap_map]
  rfl

/-- The repairs that lowering gives up at their limit, as it reports them, are those that do not
settle, in order and with the limit. No other repair is left without a round that changes no
join. -/
theorem reported_givenUp (settings : Settings) (c : Computation) :
    (run settings c).2.filterMap Event.givenUp? =
      (repairs settings c).filterMap fun (s, header) =>
        if s.settles header then none else some (header, s.roundLimit header) := by
  have reported : (repairs settings c).filterMap (fun (s, header) =>
      if s.settles header then none else some (header, s.roundLimit header)) =
      (moments settings c).filterMap Moment.givenUp? := by
    unfold repairs
    rw [filterMap_filterMap]
    refine congrArg (List.filterMap · _) (funext fun m => ?_)
    cases m <;> rfl
  have declared := tells_declareArrays c.arrays { builder := .new settings }
  rw [reported]
  unfold run moments
  dsimp only
  cases hd : declareArrays c.arrays { builder := .new settings } with
  | error r w =>
    rw [hd] at declared
    rw [filterMap_givenUp_log _ rfl]
    exact declared
  | ok u w =>
    rw [hd] at declared
    have start : w.builder.givenUp = [] := declared
    have body := (tells_lowerStmts ⟨settings.strict, c.vars.map (·.name)⟩ c.body).within .program w
    rw [start, nil_append] at body
    dsimp only [follow]
    cases hb : within .program (lowerStmts ⟨settings.strict, c.vars.map (·.name)⟩ c.body) w with
    | error r w' =>
      rw [hb] at body
      rw [filterMap_append, filterMap_givenUp_log _ rfl, ← body]
      exact append_nil _
    | ok u' w' =>
      rw [hb] at body
      have last := tells_endProgram w'
      dsimp only
      cases he : endProgram w' <;> rw [he] at last <;> dsimp only <;>
        rw [filterMap_givenUp_log _ rfl, ← body] <;> exact last.trans (append_nil _)

/-- A loop that copies nine variables into each other, the last one from the input. -/
def copyChain : Computation where
  vars := []
  arrays := []
  body :=
    let copies := [("a", "b"), ("b", "c"), ("c", "d"), ("d", "e"), ("e", "f"), ("f", "g"),
      ("g", "h"), ("h", "i")]
    let set (name : String) (e : Expr) : Stmt := .assign ⟨name, [], .start⟩ e .start
    [.loop ⟨.less, .num 0, .num 1⟩
      (copies.map (fun (x, y) => set x (.element y [] .start)) ++
        [set "i" (.call .inputNum [] .start)]) .start]

/-- Not every repair settles: a value passes one copy in each round, so a chain of copies needs as
many rounds as it has variables, while the limit counts blocks. -/
theorem copyChain_givenUp :
    (run {} copyChain).2.filterMap Event.givenUp? = [(2, 8)] := by
  decide +kernel

/-! ## Loops that assign nothing -/

/-- Where a loop assigned no variable, no variable is merged in it. -/
theorem Closing.Ends.settles {k : Closing} (h : k.Ends)
    (hnone : ∀ c ∈ k.state.contexts.head?, c.touched = ∅) :
    ∃ exit t, reconcileLoop k.header k.bottom k.branch k.state = .ok exit t ∧
      t.givenUp = k.state.givenUp := by
  obtain @⟨F, w, v, w', branch, bra, ops, ms, h, hbottom⟩ := h
  obtain ⟨exit, t, c, s, u, hcall, hdone⟩ := h.ending hbottom
  obtain ⟨rest, hctx, hs⟩ := hdone.closes.popped
  have htouched : c.touched = ∅ := hnone c (by rw [hctx]; rfl)
  have hrepairable := hdone.linked.repairable h hdone.closes.linked hdone.low hdone.closes.valid
  have hrepaired := hdone.closes.repaired
  rw [htouched] at hrepairable hrepaired
  have hsettles : s.settles v.current = true := hrepairable.settles fun j hj name hname => by
    rw [show State.reconcileAll s v.current (∅ : Names) = s from rfl,
      hdone.linked.joinVars] at hname
    have htold := h.merged hj hname c (by rw [hdone.linked.contexts]; exact mem_cons_self ..)
    rw [htouched] at htold
    cases htold
  have hu : u.givenUp = s.givenUp := by
    rw [hrepaired, show State.reconcileAll s v.current (∅ : Names) = s from rfl,
      State.givenUp_repairLoop, hsettles, if_pos rfl, append_nil]
  have hexit : (u.addExit v.current).2.givenUp = s.givenUp := (aside_givenUp.addBlock ..).trans hu
  have hlink : s.givenUp = (w'.builder.defer bra .x v.current).givenUp := hs ▸ aside_givenUp.link ..
  refine ⟨exit, t, hcall, ?_⟩
  rcases hdone.closes.branch with ⟨-, ht⟩ | ⟨i, side, -, -, -, ht⟩ <;> rw [ht]
  · exact hexit.trans hlink
  · exact (aside_givenUp.modifyInst ..).trans (hexit.trans hlink)

/-- Whenever lowering closes a loop that assigned no variable, its repair settles: the log tells of
none that is given up. -/
theorem untouched_settles (settings : Settings) (c : Computation) : ∀ k ∈ closings settings c,
    (∀ ctx ∈ k.state.contexts.head?, ctx.touched = ∅) →
      ∃ exit t, reconcileLoop k.header k.bottom k.branch k.state = .ok exit t ∧
        t.givenUp = k.state.givenUp := by
  intro k hk
  obtain ⟨_, w, hdeclare, hk⟩ := mem_follow.mp hk
  obtain ⟨h, -⟩ := canLower_declareArrays c.arrays (canLower_new settings 0) rfl _ _ hdeclare
  exact (ends_stmtsClosings _ c.body h k hk).settles

end Lowering
end SingleAssignment
