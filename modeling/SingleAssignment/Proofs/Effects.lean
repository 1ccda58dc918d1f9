import SingleAssignment.Proofs.Access
import SingleAssignment.Proofs.Anchors

/-!
# Effects of a tree

One walk of a syntax tree from left to right meets its effects: what it reads and writes, what it
stores, and the branches that its conditions, its `else` parts and its loops need. `Expr.effects`,
`Stmt.effects` and `Computation.effects` list their operations. Lowering an expression or a
condition puts exactly these at the end of the current block (`gives_lowerExpr`,
`ends_lowerRelation`).
-/

namespace SingleAssignment

open Code Builder List Builder.State

namespace Source

/-- The branch that leaves a relation that does not hold. -/
def Comparison.exit : Comparison → List Opcode
  | equal => [.bne]
  | notEqual => [.beq]
  | less => [.bge]
  | lessEqual => [.bgt]
  | greater => [.ble]
  | greaterEqual => [.blt]
  | other _ => []

mutual

/-- The effects of an expression, in the order of evaluation. -/
def Expr.effects : Expr → List Opcode
  | .num _ => []
  | .element _ indices _ => Expr.allEffects indices
  | .binary _ left right => left.effects ++ right.effects
  | .call .inputNum _ _ => [.read]
  | .call .outputNum args _ => Expr.firstEffects args ++ [.write]
  | .call .outputNewLine _ _ => [.writeNL]
  | .call (.other _) _ _ => []
  | .hole => []

/-- The effects of several expressions, from left to right. -/
def Expr.allEffects : List Expr → List Opcode
  | [] => []
  | e :: es => e.effects ++ Expr.allEffects es

/-- The effects of the argument of a call. -/
def Expr.firstEffects : List Expr → List Opcode
  | [] => []
  | e :: _ => e.effects

end

/-- The effects of a condition: those of its sides, and the branch that leaves it. -/
def Relation.effects (r : Relation) : List Opcode :=
  r.left.effects ++ r.right.effects ++ r.op.exit

/-- The effects of what an assignment does behind its value: an element is stored behind its
indices. -/
def Designator.effects (d : Designator) : List Opcode :=
  if d.indices.isEmpty then [] else Expr.allEffects d.indices ++ [.store]

mutual

/-- The effects of a statement, from left to right. -/
def Stmt.effects : Stmt → List Opcode
  | .assign target value _ => value.effects ++ target.effects
  | .call fn args pos => (Expr.call fn args pos).effects
  | .ifThen cond thenPart _ => cond.effects ++ Stmt.allEffects thenPart
  | .ifElse cond thenPart elsePart _ =>
    cond.effects ++ Stmt.allEffects thenPart ++ [.bra] ++ Stmt.allEffects elsePart
  | .loop cond body _ => cond.effects ++ Stmt.allEffects body ++ [.bra]
  | .hole => []

/-- The effects of several statements, from left to right. -/
def Stmt.allEffects : List Stmt → List Opcode
  | [] => []
  | s :: ss => s.effects ++ Stmt.allEffects ss

end

/-- The effects of a computation: those of its body, and the end. -/
def Computation.effects (c : Computation) : List Opcode :=
  Stmt.allEffects c.body ++ [.halt]

end Source

namespace Builder

/-- What an expression asks for: values zero, and a warning tells of each. -/
def Want.read : Want → Prop
  | .zero cause _ _ => cause.isSome
  | _ => False

end Builder

namespace Lowering

open Source

/-- Code with the given effects was added to the current block, which goes on. -/
structure Emits (w w' : Walk) (ops : List Opcode) : Prop where
  current : w'.current = w.current
  opened : w'.builder.Open w'.current
  steps : ∃ l : List (InstId × Opcode), l.map (·.2) = ops ∧
    Steps w.current Want.read (l.map fun a => (w.current, a)) w.builder w'.builder

/-- Code with the given effects was added to the current block, and then the one that ends it. -/
structure EmitsLast (w w' : Walk) (ops : List Opcode) (id : InstId) (op : Opcode) : Prop where
  current : w'.current = w.current
  steps : ∃ l : List (InstId × Opcode), l.map (·.2) = ops ∧
    Steps w.current Want.read ((l ++ [(id, op)]).map fun a => (w.current, a)) w.builder w'.builder

/-- Code can be added to the current block: nothing has ended it, and versions name what was
issued. -/
structure CanAdd (F : BlockId) (w : Walk) : Prop where
  ready : Ready F w
  rooted : w.builder.Rooted w.current
  opened : w.builder.Open w.current
  issued : w.builder.AllIssued

section

variable {F : BlockId} {w w' w'' : Walk} {ops ops' : List Opcode}

namespace Ready

theorem start_le (h : Ready F w) : startBlock ≤ w.current := by
  have hlt := ((h.sound.laid.layout.graph.valid startBlock).mp h.sound.laid.valid_start).2
  rw [← h.newest] at hlt
  exact Int.lt_add_one_iff.mp hlt

theorem entry_lt (h : Ready F w) : entryBlock < w.current :=
  Int.lt_of_lt_of_le (by decide) h.start_le

end Ready

theorem CanAdd.ongoing (h : CanAdd F w) : Ongoing w.builder w.current :=
  ⟨h.ready.sound.laid.timelines, isSome_block h.ready.sound.laid.valid_entry,
    isSome_block h.ready.isSome_current, h.opened⟩

namespace Emits

theorem trans (h : Emits w w' ops) (h' : Emits w' w'' ops') : Emits w w'' (ops ++ ops') := by
  obtain ⟨l, hl, hsteps⟩ := h.steps
  obtain ⟨l', hl', hsteps'⟩ := h'.steps
  refine ⟨h'.current.trans h.current, h'.opened, l ++ l', by rw [map_append, hl, hl'], ?_⟩
  rw [h.current] at hsteps'
  rw [map_append]
  exact hsteps.trans hsteps'

theorem silent (h : Emits w w' ops) (h' : Emits w' w'' []) : Emits w w'' ops := by
  have hall := h.trans h'
  rwa [append_nil] at hall

/-- The effects that come before the one that ends a block. -/
theorem andEnd {id : InstId} {op : Opcode} (h : Emits w w' ops) (h' : EmitsLast w' w'' ops' id op) :
    EmitsLast w w'' (ops ++ ops') id op := by
  obtain ⟨l, hl, hsteps⟩ := h.steps
  obtain ⟨l', hl', hsteps'⟩ := h'.steps
  refine ⟨h'.current.trans h.current, l ++ l', by rw [map_append, hl, hl'], ?_⟩
  rw [h.current] at hsteps'
  rw [append_assoc, map_append]
  exact hsteps.trans hsteps'

theorem persists (h : Emits w w' ops) (ha : CanAdd F w) : Persists w.builder w'.builder := by
  obtain ⟨l, -, hsteps⟩ := h.steps
  exact (hsteps.logged ha.ready.sound.laid.timelines).persists

theorem canAdd (h : Emits w w' ops) (ha : CanAdd F w) (hr : Ready F w') : CanAdd F w' := by
  obtain ⟨l, -, hsteps⟩ := h.steps
  exact ⟨hr, h.current ▸ hsteps.rooted ha.ready.sound.laid.timelines ha.ready.isSome_current
    ha.rooted, h.opened, hsteps.allIssued ha.ready.sound.laid.timelines ha.issued⟩

end Emits

/-- The variables have versions above the current block. -/
def Holds (w : Walk) (names : List String) : Prop :=
  ∀ x ∈ names, w.builder.HasVersion w.current x

namespace Holds

variable {names names' : List String}

theorem nil (w : Walk) : Holds w [] :=
  fun _ hx => by cases hx

theorem append (h : Holds w names) (h' : Holds w names') : Holds w (names ++ names') :=
  fun x hx => (mem_append.mp hx).elim (h x) (h' x)

theorem emits (hn : Holds w names) (h : Emits w w' ops) (ha : CanAdd F w) : Holds w' names := by
  obtain ⟨l, -, hsteps⟩ := h.steps
  exact fun x hx => h.current ▸ hsteps.hasVersion ha.ready.sound.laid.timelines (hn x hx)

end Holds

/-- A value was computed, with the given effects, in the current block, where the variables that
were read have versions then. -/
def Gives (w : Walk) (ops : List Opcode) (names : List String) (v : Value) (w' : Walk) : Prop :=
  Emits w w' ops ∧ w'.builder.IssuedValue v ∧ Holds w' names

namespace CanAdd

/-- What changes code without an effect is not told. -/
theorem emits {s : State} (h : CanAdd F w) (hc : Changes w.current Want.read w.builder s) :
    Emits w { w with builder := s } [] :=
  ⟨rfl, (Changes.calm hc h.ready.sound.laid.timelines).opened h.opened, [], rfl, .of_changes hc⟩

theorem gives {xs : List Value} {r : Value × State} (h : CanAdd F w)
    (hc : Computed w.current Want.read w.builder xs r) (hxs : ∀ x ∈ xs, w.builder.IssuedValue x) :
    Gives w [] [] r.1 { w with builder := r.2 } :=
  ⟨h.emits hc.changes, hc.issued hxs, .nil _⟩

/-- The values that an array is addressed by are constants. -/
theorem issuedValue_of_isConst {s : State} {v : Value} {n : Int64} (h : s.view.IsConst v n) :
    s.IssuedValue v := by
  obtain ⟨hsrc, i, hi, -⟩ := h
  obtain ⟨i₀, hi₀, -⟩ := inst?_of_view hi
  have hid := issued_of_inst? hi₀
  refine ⟨hid, fun id hmem => ?_⟩
  rw [hsrc] at hmem
  exact mem_singleton.mp hmem ▸ hid

/-- What the address of an element is computed from was issued if the indices were. -/
theorem issued_factors (h : CanAdd F w) {name : String} {a : ArrayInfo} {indices : List Value}
    (ha : w.builder.array? name = some a) (hindices : ∀ v ∈ indices, w.builder.IssuedValue v) :
    ∀ v ∈ a.baseValue :: Ongoing.factors (indices.zip (a.strides.zip a.strideValues)),
      w.builder.IssuedValue v := by
  have haddr : w.builder.view.Addressed a := h.ready.sound.laid.layout.arrays
    (mem_of_find?_eq_some ha)
  intro v hv
  rcases mem_cons.mp hv with rfl | hv
  · exact issuedValue_of_isConst haddr.1
  · obtain ⟨⟨index, stride, strideValue⟩, hmem, hv⟩ := mem_flatMap.mp hv
    obtain ⟨hindex, hstride⟩ := of_mem_zip hmem
    rcases mem_cons.mp hv with rfl | hv
    · exact hindices _ hindex
    · rw [mem_singleton.mp hv]
      exact issuedValue_of_isConst (haddr.2.2 _ hstride)

end CanAdd

theorem not_isNumbered_of_hasEffect {op : Opcode} (h : op.hasEffect = true) :
    op.isNumbered = false ∧ op ≠ .phi := by
  cases hnum : op.isNumbered with
  | true =>
    rw [Opcode.hasEffect_of_isNumbered hnum] at h
    cases h
  | false =>
    refine ⟨rfl, ?_⟩
    rintro rfl
    cases h

section

variable {x y : Value}

/-- An operation that takes part in value numbering is no effect. -/
theorem gives_numbered (h : CanAdd F w) (op : Opcode) (hop : op.isNumbered = true)
    (hx : w.builder.IssuedValue x) (hy : w.builder.IssuedValue y) :
    Yields (emitHere op x y) w (Gives w [] []) := by
  have hphi : op ≠ .phi := by
    rintro rfl
    cases hop
  have hxy : ∀ v ∈ [x, y], w.builder.IssuedValue v := by
    simp only [mem_cons, not_mem_nil, or_false]
    rintro v (rfl | rfl)
    · exact hx
    · exact hy
  refine (yields_emitHere op hphi).imp ?_
  rintro v _ ⟨s, rfl, ⟨-, -, hv⟩ | ⟨-, n, id, -, hv⟩ | ⟨hnum, -⟩⟩
  · rw [show s = _ from congrArg Prod.snd hv, show v = _ from congrArg Prod.fst hv]
    exact h.gives (h.ongoing.numberAtEnd (Int.le_refl _) hop) hxy
  · rw [show s = _ from congrArg Prod.snd hv, show v = _ from congrArg Prod.fst hv]
    exact h.gives (h.ongoing.const n) fun _ hv => by cases hv
  · rw [hop] at hnum
    cases hnum

/-- An effect comes last in the current block. -/
theorem ends_emitHere (h : CanAdd F w) (op : Opcode) (hop : op.hasEffect = true) :
    Yields (emitHere op x y) w fun v w' => EmitsLast w w' [] v.id op ∧
      (w.builder.IssuedValue x → w.builder.IssuedValue y → w'.builder.IssuedValue v) := by
  obtain ⟨hnum, hphi⟩ := not_isNumbered_of_hasEffect hop
  refine (yields_emitHere op hphi).imp ?_
  rintro v _ ⟨s, rfl, ⟨hnum', -⟩ | ⟨rfl, -⟩ | ⟨-, hv⟩⟩
  · rw [hnum] at hnum'
    cases hnum'
  · cases hop
  · obtain ⟨rfl, rfl⟩ := Prod.mk.inj hv
    have hsteps := Steps.effect (W := Want.read) h.ongoing h.ready.start_le hop x y
    refine ⟨⟨rfl, [], rfl, hsteps⟩, fun hx hy => ?_⟩
    have hp := (hsteps.logged h.ready.sound.laid.timelines).persists
    have hempty : op ≠ .empty := by
      rintro rfl
      cases hop
    obtain ⟨-, hview, -⟩ := h.ready.sound.laid.emitEffect_exact (x := x) (y := y)
      h.ready.isSome_current op hempty
    obtain ⟨i, hi, -⟩ := inst?_of_view ((congrFun (congrArg View.insts hview) _).trans
      (Function.update_self ..))
    exact .result (hp.issuedValue hx) (hp.issuedValue hy) (issued_of_inst? hi)

theorem EmitsLast.emits {id : InstId} {op : Opcode} (h : EmitsLast w w' ops id op) (ha : CanAdd F w)
    (hops : ∀ o ∈ ops ++ [op], o.isTerminator = false) : Emits w w' (ops ++ [op]) := by
  obtain ⟨l, hl, hsteps⟩ := h.steps
  refine ⟨h.current, ?_, l ++ [(id, op)], by rw [map_append, hl]; rfl, hsteps⟩
  rw [h.current]
  refine (hsteps.logged ha.ready.sound.laid.timelines).opened ha.opened fun a ha _ => hops _ ?_
  obtain ⟨b, hb, rfl⟩ := mem_map.mp ha
  rw [← hl, show [op] = [(id, op)].map (·.2) from rfl, ← map_append]
  exact mem_map_of_mem hb

theorem gives_effect (h : CanAdd F w) (op : Opcode) (hop : op.hasEffect = true)
    (hend : op.isTerminator = false) (hx : w.builder.IssuedValue x) (hy : w.builder.IssuedValue y) :
    Yields (emitHere op x y) w (Gives w [op] []) := by
  refine (ends_emitHere h op hop).imp fun v w' hv => ⟨hv.1.emits h fun o ho => ?_,
    hv.2 hx hy, .nil _⟩
  rw [mem_singleton.mp ho, hend]

end

/-- A call has the effects of its argument, if it has one, and its own. It reads what that reads. -/
theorem gives_lowerCall (h : CanAdd F w) {fn : Builtin} {args : List Expr} {pos : Position}
    {argument : Lower Value} (harg : Yields argument w
      (Gives w (Expr.firstEffects args) (Expr.firstReads args)))
    (hready : Yields argument w fun _ w' => Ready F w') :
    Yields (lowerCall fn pos argument) w
      (Gives w (Expr.call fn args pos).effects (Expr.call fn args pos).reads) := by
  have hnone := issuedValue_empty
  cases fn with
  | inputNum => exact gives_effect h .read rfl rfl (hnone _) (hnone _)
  | outputNewLine => exact gives_effect h .writeNL rfl rfl (hnone _) (hnone _)
  | outputNum =>
    refine .bind ((hready.and harg).imp ?_)
    rintro v w₁ ⟨hr, hv, hvi, hn⟩
    have h₁ := hv.canAdd h hr
    exact (gives_effect h₁ .write rfl rfl hvi (hnone _)).imp fun _ w' hw => ⟨hv.trans hw.1, hw.2.1,
      hn.emits hw.1 h₁⟩
  | other name => exact .throw trivial

theorem ready_lowerExpr (scope : Scope) (e : Expr) (h : Ready F w) :
    Yields (lowerExpr scope e) w fun _ w' => Ready F w' :=
  (computes_lowerExpr scope e h).imp fun _ _ hc => hc.1.ready h

mutual

/-- An expression has its effects in the current block, in the order of evaluation, and what it
reads has a version there then. -/
theorem gives_lowerExpr (scope : Scope) : ∀ (e : Expr) {w : Walk}, CanAdd F w →
    Yields (lowerExpr scope e) w (Gives w e.effects e.reads)
  | .num n, w, h => yields_build (ends_step (h.gives (h.ongoing.const n) fun _ hv => by cases hv))
  | .element name [] pos, w, h => by
    refine .bind (yields_within (yields_checkScalar fun _ => .bind (yields_current (yields_build
      (yields_lookup.imp ?_)))) _)
    rintro v s ⟨-, hv⟩
    rw [show s = _ from congrArg Prod.snd hv, show v = _ from congrArg Prod.fst hv]
    refine ⟨h.emits (h.ready.sound.laid.changes_readAtEnd h.rooted fun _ => rfl),
      h.ready.sound.laid.issuedValue_readAtEnd h.issued h.rooted _ _, fun x hx => ?_⟩
    cases mem_singleton.mp hx
    exact h.ready.sound.laid.hasVersion_readAtEnd name (Int.ne_of_gt h.ready.entry_lt) h.rooted _
  | .element name (e :: es) pos, w, h => by
    refine .bind (yields_within (((computes_lowerIndices scope (e :: es) h.ready).and
      (gives_lowerIndices scope (e :: es) h)).imp ?_) _)
    rintro indices w₁ ⟨⟨hc, -⟩, he, hindices, hn⟩
    have h₁ := he.canAdd h (hc.ready h.ready)
    refine .bind (yields_current (yields_located (yields_within (yields_callBuilder
      (yields_loadElement.imp ?_)) _) _ _))
    rintro v s ⟨a, ha, -, hv⟩
    rw [show s = _ from congrArg Prod.snd hv, show v = _ from congrArg Prod.fst hv]
    obtain ⟨hload, hv, -⟩ := h₁.gives (h₁.ongoing.load (Int.le_refl _) a indices)
      (h₁.issued_factors ha hindices)
    exact ⟨he.silent hload, hv, hn.emits hload h₁⟩
  | .binary op left right, w, h => by
    refine .bind (yields_within (((ready_lowerExpr scope left h.ready).and
      (gives_lowerExpr scope left h)).imp ?_) _)
    rintro x w₁ ⟨hr₁, hx, hxi, hxn⟩
    have h₁ := hx.canAdd h hr₁
    refine .bind (yields_within
      (((ready_lowerExpr scope right hr₁).and (gives_lowerExpr scope right h₁)).imp ?_) _)
    rintro y w₂ ⟨hr₂, hy, hyi, hyn⟩
    have h₂ := hy.canAdd h₁ hr₂
    have hop : (operation op).isNumbered = true := by cases op <;> rfl
    exact yields_within ((gives_numbered h₂ _ hop ((hy.persists h₁).issuedValue hxi) hyi).imp
      fun _ w' hw =>
      ⟨(hx.trans hy).silent hw.1, hw.2.1, ((hxn.emits hy h₁).append hyn).emits hw.1 h₂⟩) _
  | .call fn args pos, w, h =>
    yields_within (gives_lowerCall h (gives_lowerArgument scope args h)
      ((computes_lowerArgument scope args h.ready).imp fun _ _ hc => hc.1.ready h.ready)) _
  | .hole, w, h => .throw trivial

theorem gives_lowerIndices (scope : Scope) : ∀ (es : List Expr) {w : Walk}, CanAdd F w →
    Yields (lowerIndices scope es) w fun vs w' => Emits w w' (Expr.allEffects es) ∧
      (∀ v ∈ vs, w'.builder.IssuedValue v) ∧ Holds w' (Expr.allReads es)
  | [], w, h => .pure ⟨h.emits .refl, (fun _ hv => by cases hv), .nil _⟩
  | e :: es, w, h => by
    refine .bind (yields_within
      (((ready_lowerExpr scope e h.ready).and (gives_lowerExpr scope e h)).imp ?_) _)
    rintro x w₁ ⟨hr, hx, hxi, hxn⟩
    have h₁ := hx.canAdd h hr
    refine .bind ((gives_lowerIndices scope es h₁).imp ?_)
    rintro xs w₂ ⟨hxs, hxsi, hxsn⟩
    refine .pure ⟨hx.trans hxs, fun v hv => ?_, (hxn.emits hxs h₁).append hxsn⟩
    rcases mem_cons.mp hv with rfl | hv
    · exact (hxs.persists h₁).issuedValue hxi
    · exact hxsi v hv

theorem gives_lowerArgument (scope : Scope) : ∀ (es : List Expr) {w : Walk}, CanAdd F w →
    Yields (lowerArgument scope es) w (Gives w (Expr.firstEffects es) (Expr.firstReads es))
  | [], _, _ => .throw trivial
  | e :: _, _, h => yields_within (gives_lowerExpr scope e h) _

end

/-- The operation that ends a condition, unless the relation is outside the language. -/
theorem exit_eq_negated {c : Comparison} (h : negated c ≠ .const) :
    c.exit = [negated c] ∧ (negated c).isConditional = true := by
  cases c <;> first | exact ⟨rfl, rfl⟩ | exact absurd rfl h

/-- How a condition is lowered: its sides, and then the branch that leaves the current block ends
it. -/
theorem lowerRelation_cases (scope : Scope) (r : Relation) (h : CanAdd F w) :
    Yields (lowerRelation scope r) w fun id w' => ∃ x w₁ y w₂ op, lowerExpr scope r.left w = .ok x
      w₁ ∧ CanAdd F w₁ ∧ Emits w w₁ r.left.effects ∧ lowerExpr scope r.right w₁ = .ok y w₂ ∧
        CanAdd F w₂ ∧ Emits w₁ w₂ r.right.effects ∧
      r.op.exit = [op] ∧ op.isConditional = true ∧ EmitsLast w₂ w' [] id op := by
  refine .bind (yields_within (((computes_lowerExpr scope r.left h.ready).and
    (gives_lowerExpr scope r.left h)).self.imp ?_) _)
  rintro x w₁ ⟨⟨⟨hx, hbx⟩, hxe, hxi, -⟩, hleft⟩
  have hr₁ := hx.ready h.ready
  have h₁ := hxe.canAdd h hr₁
  refine .bind (yields_within (((computes_lowerExpr scope r.right hr₁).and
    (gives_lowerExpr scope r.right h₁)).self.imp ?_) _)
  rintro y w₂ ⟨⟨⟨hy, hby⟩, hye, hyi, -⟩, hright⟩
  have hr₂ := hy.ready hr₁
  have h₂ := hye.canAdd h₁ hr₂
  refine .bind
    (((computes_emitHere hr₂ .cmp nofun
    nofun
    nofun
    (Laid.BoundedSource.mono hy.works hbx) hby).and
    ((yields_emitHere .cmp nofun).and (gives_numbered h₂ .cmp rfl
    ((hye.persists h₁).issuedValue hxi) hyi))).imp ?_)
  rintro c w₃ ⟨⟨hc, -⟩, ⟨s, -, hs⟩, hce, -⟩
  have hsrc : ∀ n id, c.src ≠ .immediate n id := by
    intro n id he
    rcases hs with ⟨-, -, hv⟩ | ⟨hop, -⟩ | ⟨hop, -⟩
    · rw [show c = _ from congrArg Prod.fst hv, src_numberAtEnd] at he
      cases he
    · cases hop
    · cases hop
  have h₃ := hce.canAdd h₂ (hc.ready hr₂)
  by_cases hconst : negated r.op = .const
  · -- a relation outside the language asks for a constant, and a comparison is none
    refine .bind (yields_within ((yields_emitHere (negated r.op) (negated_ne r.op).1).imp ?_) _)
    rintro v w' ⟨s', -, ⟨-, hne, -⟩ | ⟨-, n, id, himm, -⟩ | ⟨hnum, -⟩⟩
    · exact absurd hconst hne
    · exact absurd himm (hsrc n id)
    · rw [hconst] at hnum
      cases hnum
  · obtain ⟨hexit, hcond⟩ := exit_eq_negated hconst
    have heffect : (negated r.op).hasEffect = true :=
      Opcode.hasEffect_of_isTerminator (by simp [Opcode.isTerminator, Opcode.isBranch, hcond])
    refine .bind (yields_within ((ends_emitHere h₃ _ heffect).imp fun v w' hv => ?_) _)
    exact .pure ⟨x, w₁, y, w₂, _, hleft, h₁, hxe, hright, h₂, hye, hexit, hcond, hce.andEnd hv.1⟩

/-- A condition ends the current block with the branch that leaves it. -/
theorem ends_lowerRelation (scope : Scope) (r : Relation) (h : CanAdd F w) :
    Yields (lowerRelation scope r) w fun id w' => ∃ op, r.op.exit = [op] ∧ op.isConditional = true ∧
      EmitsLast w w' (r.left.effects ++ r.right.effects) id op := by
  refine (lowerRelation_cases scope r h).imp ?_
  rintro id w' ⟨x, w₁, y, w₂, op, -, -, hx, -, -, hy, hexit, hcond, hends⟩
  have hall := (hx.trans hy).andEnd hends
  rw [append_nil] at hall
  exact ⟨op, hexit, hcond, hall⟩

end

end Lowering

end SingleAssignment
