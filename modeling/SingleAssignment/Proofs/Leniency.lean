import SingleAssignment.Proofs.Branching

/-!
# Programs without declarations

A computation that is lowered where variables have to be declared is lowered to the same program
where they have not (`lower_lenient`): each step does what it does there (`Covers`).
-/

namespace SingleAssignment.Lowering

open Code Builder Source

/-- A step does what another does wherever that one comes to its end. -/
def Covers {α : Type} (m m' : Lower α) : Prop :=
  ∀ w a w', m' w = .ok a w' → m w = .ok a w'

namespace Covers

variable {α β : Type} {m m' : Lower α} {f f' : α → Lower β}

theorem refl (m : Lower α) : Covers m m :=
  fun _ _ _ h => h

theorem bind (h : Covers m m') (hf : ∀ a, Covers (f a) (f' a)) : Covers (m >>= f) (m' >>= f') := by
  intro w b w'' hw
  have hw : EStateM.bind m' f' w = .ok b w'' := hw
  show EStateM.bind m f w = _
  unfold EStateM.bind at hw ⊢
  split at hw
  · rename_i a w' ha
    rw [h _ _ _ ha]
    exact hf a _ _ _ hw
  · cases hw

theorem within (h : Covers m m') (site : Site) : Covers (Lowering.within site m)
    (Lowering.within site m') := by
  intro w a w' hw
  have ha := yields_within (.of_ok fun _ _ ha => h _ _ _ ha) site _ _ hw
  unfold Lowering.within
  rw [ha]

theorem discard (h : Covers m m') : Covers (Functor.discard m) (Functor.discard m') := by
  intro w a w' hw
  have hw : EStateM.map (fun _ => PUnit.unit) m' w = .ok a w' := hw
  show EStateM.map (fun _ => PUnit.unit) m w = _
  unfold EStateM.map at hw ⊢
  split at hw
  · rename_i b w₁ hb
    rw [h _ _ _ hb]
    exact hw
  · cases hw

end Covers

section

variable {names : List String}

theorem covers_checkScalar (name : String) (pos : Position) :
    Covers (checkScalar ⟨false, names⟩ name pos) (checkScalar ⟨true, names⟩ name pos) := by
  have hrest : ∀ e : Report, Covers
      (if (false && !names.contains name) = true then throw e else pure () : Lower Unit)
      (if (true && !names.contains name) = true then throw e else pure ()) := by
    intro e w a w' hw
    split at hw
    · cases hw
    · exact hw
  refine .bind (.refl _) fun w => ?_
  dsimp only
  split
  · exact .bind (.refl _) fun _ => hrest _
  · exact hrest _

theorem covers_lowerCall {argument argument' : Lower Value} (fn : Builtin) (pos : Position)
    (h : Covers argument argument') : Covers (lowerCall fn pos argument)
    (lowerCall fn pos argument') := by
  cases fn with
  | outputNum => exact .bind h fun _ => .refl _
  | _ => exact .refl _

mutual

theorem covers_lowerExpr : ∀ e : Expr, Covers (lowerExpr ⟨false, names⟩ e)
    (lowerExpr ⟨true, names⟩ e)
  | .num n => by
    rw [lowerExpr, lowerExpr]
    exact .refl _
  | .element name [] pos => by
    rw [lowerExpr, lowerExpr]
    exact .bind ((covers_checkScalar name pos).within _) fun _ => .refl _
  | .element name (e :: es) pos => by
    rw [lowerExpr, lowerExpr]
    exact .bind ((covers_lowerIndices (e :: es)).within _) fun _ => .refl _
  | .binary op left right => by
    rw [lowerExpr, lowerExpr]
    exact .bind ((covers_lowerExpr left).within _) fun _ => .bind
      ((covers_lowerExpr right).within _) fun _ => .refl _
  | .call fn args pos => by
    rw [lowerExpr, lowerExpr]
    exact (covers_lowerCall fn pos (covers_lowerArgument args)).within _
  | .hole => by
    rw [lowerExpr, lowerExpr]
    exact .refl _

theorem covers_lowerIndices : ∀ es : List Expr, Covers (lowerIndices ⟨false, names⟩ es)
    (lowerIndices ⟨true, names⟩ es)
  | [] => by
    rw [lowerIndices, lowerIndices]
    exact .refl _
  | e :: es => by
    rw [lowerIndices, lowerIndices]
    exact .bind ((covers_lowerExpr e).within _) fun _ => .bind (covers_lowerIndices es)
      fun _ => .refl _

theorem covers_lowerArgument : ∀ es : List Expr, Covers (lowerArgument ⟨false, names⟩ es)
    (lowerArgument ⟨true, names⟩ es)
  | [] => by
    rw [lowerArgument, lowerArgument]
    exact .refl _
  | e :: es => by
    rw [lowerArgument, lowerArgument]
    exact (covers_lowerExpr e).within _

end

theorem covers_lowerRelation (r : Relation) :
    Covers (lowerRelation ⟨false, names⟩ r) (lowerRelation ⟨true, names⟩ r) :=
  .bind ((covers_lowerExpr r.left).within _) fun _ => .bind ((covers_lowerExpr r.right).within _)
    fun _ => .refl _

theorem covers_lowerAssign (d : Designator) (v : Value) :
    Covers (lowerAssign ⟨false, names⟩ d v) (lowerAssign ⟨true, names⟩ d v) := by
  unfold lowerAssign
  split
  · exact .bind ((covers_checkScalar d.name d.pos).within _) fun _ => .refl _
  · exact .bind ((covers_lowerIndices _).within _) fun _ => .refl _

theorem covers_openIf (kind : JoinKind) (cond : Relation) :
    Covers (openIf ⟨false, names⟩ kind cond) (openIf ⟨true, names⟩ kind cond) :=
  .bind ((covers_lowerRelation cond).within _) fun _ => .refl _

mutual

/-- What is lowered where variables have to be declared is lowered the same where they have not. -/
theorem covers_lowerStmt : ∀ st : Stmt, Covers (lowerStmt ⟨false, names⟩ st)
    (lowerStmt ⟨true, names⟩ st)
  | .assign target value pos => by
    rw [lowerStmt, lowerStmt]
    exact .bind ((covers_lowerExpr value).within _) fun v => (covers_lowerAssign target v).within _
  | .call fn args pos => by
    rw [lowerStmt, lowerStmt]
    exact ((covers_lowerCall fn pos (covers_lowerArgument args)).within _).discard
  | .ifThen cond thenPart pos => by
    rw [lowerStmt, lowerStmt]
    exact Covers.within (.bind (covers_openIf _ cond) fun _ => .bind
      ((covers_lowerStmts thenPart).within _) fun _ => .refl _) _
  | .ifElse cond thenPart elsePart pos => by
    rw [lowerStmt, lowerStmt]
    exact Covers.within (.bind (covers_openIf _ cond) fun _ => .bind
      ((covers_lowerStmts thenPart).within _) fun _ => .bind (.refl _) fun _ => .bind
      ((covers_lowerStmts elsePart).within _) fun _ => .refl _) _
  | .loop cond body pos => by
    rw [lowerStmt, lowerStmt]
    exact Covers.within (.bind (.bind (.refl _) fun _ => .bind
      ((covers_lowerRelation cond).within _) fun _ => .refl _) fun _ => .bind
      ((covers_lowerStmts body).within _) fun _ => .refl _) _
  | .hole => by
    rw [lowerStmt, lowerStmt]
    exact .refl _

theorem covers_lowerStmts : ∀ ss : List Stmt, Covers (lowerStmts ⟨false, names⟩ ss)
    (lowerStmts ⟨true, names⟩ ss)
  | [] => by
    rw [lowerStmts, lowerStmts]
    exact .refl _
  | st :: ss => by
    rw [lowerStmts, lowerStmts]
    exact .bind ((covers_lowerStmt st).within _) fun _ => covers_lowerStmts ss

end

/-- A computation that is lowered is lowered to the same program where variables need not be
declared. -/
theorem lower_lenient {settings : Settings} {c : Computation} {p : Program}
    (h : lower settings c = .ok p) : lower { settings with strict := false } c = .ok p := by
  obtain ⟨setup, strict⟩ := settings
  cases strict with
  | false => exact h
  | true =>
    obtain ⟨w₁, w₂, w₃, e, h₁, h₂, h₃, rfl⟩ := lower_ok h
    have h₁ : declareArrays c.arrays { builder := .new ⟨setup, false⟩ } = .ok ⟨⟩ w₁ := h₁
    have hbody := (covers_lowerStmts c.body).within Site.program w₁ ⟨⟩ w₂ (by rw [within, h₂])
    unfold lower run
    dsimp only
    rw [h₁]
    dsimp only
    rw [hbody]
    dsimp only
    rw [h₃]

end

end SingleAssignment.Lowering
