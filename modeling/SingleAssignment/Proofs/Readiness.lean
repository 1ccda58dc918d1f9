import SingleAssignment.Proofs.Moment
import SingleAssignment.Proofs.Outcome
import SingleAssignment.Proofs.Soundness

/-!
# Expressions and assignments

Lowering is ready for the next part of a computation (`Ready`) where the state is sound and the
current block is the newest. Expressions are computed in the current block (`Computes`), and
assignments add code behind all that is there (`Extends`); what a load found before is still there
behind them (`Seen`).
-/

namespace SingleAssignment.Lowering

open Code Builder Source List

/-- The first block whose versions may still be replayed. While no join is open there is none; while
one is open it is the first block of the outermost construct. -/
def floorAt (F : BlockId) (s : State) : BlockId :=
  if s.contexts.isEmpty then s.view.size else F

/-- Lowering can go on: the state is sound, and the current block is the newest. -/
structure Ready (F : BlockId) (w : Walk) : Prop where
  sound : Sound (floorAt F w.builder) w.builder
  newest : w.current + 1 = w.builder.view.size

theorem Ready.isSome_current {F : BlockId} {w : Walk} (h : Ready F w) :
    (w.builder.view.graph w.current).isSome :=
  h.sound.laid.valid_newest h.newest

/-- What a moment found is still there in a later state, and stores were added behind it only. -/
def Seen (w : Walk) : Moment → Prop
  | .repair .. => True
  | .load w₀ name indices => (∃ F, Ready F w₀) ∧
      (∀ v ∈ indices, w₀.builder.view.BoundedSource v.src) ∧ w₀.current ≤ w.current ∧
      ∀ v s, loadElement w₀.current name indices w₀.builder = .ok v s →
        View.Grows w₀.current s.view w.builder.view

theorem Seen.mono {m : Moment} {w w' : Walk} {b₀ : BlockId} (h : Seen w m)
    (g : View.Grows b₀ w.builder.view w'.builder.view) (hb : w.current ≤ b₀)
    (hc : w.current ≤ w'.current) : Seen w' m := by
  cases m with
  | repair => trivial
  | load w₀ name indices =>
    obtain ⟨hr, hs, hle, hg⟩ := h
    exact ⟨hr, hs, Int.le_trans hle hc, fun v s hv => (hg v s hv).trans g (Int.le_trans hle hb)⟩

theorem floorAt_congr {F : BlockId} {s t : State} (hf : t.frame = s.frame)
    (hs : t.view.size = s.view.size) : floorAt F t = floorAt F s := by
  have hkinds : t.contexts.map (·.kind) = s.contexts.map (·.kind) := congrArg (·.2.2.2) hf
  have hempty : t.contexts.isEmpty = s.contexts.isEmpty := by
    rw [← isEmpty_map (f := (·.kind)), hkinds, isEmpty_map]
  rw [floorAt, floorAt, hempty, hs]

theorem Ready.works {F : BlockId} {w : Walk} {s : State} (h : Ready F w)
    (hw : AddsCode (floorAt F w.builder) w.builder s) : Ready F { w with builder := s } := by
  refine ⟨?_, hw.size ▸ h.newest⟩
  rw [show floorAt F ({ w with builder := s } : Walk).builder = _ from floorAt_congr
      hw.frame hw.size]
  exact h.sound.works hw

/-! ## Expressions -/

/-- A step that computes values in the current block. -/
structure Computes (F : BlockId) (w w' : Walk) (ms : List Moment) : Prop where
  works : AddsCode (floorAt F w.builder) w.builder w'.builder
  current : w'.current = w.current
  moments : ∀ m ∈ ms, Seen w' m

namespace Computes

variable {F : BlockId} {w w' w'' : Walk} {ms ns : List Moment}

theorem ready (h : Computes F w w' ms) (hr : Ready F w) : Ready F w' := by
  obtain ⟨s, b⟩ := w'
  cases h.current
  exact hr.works h.works

theorem trans (h : Computes F w w' ms) (h' : Computes F w' w'' ns) :
    Computes F w w'' (ms ++ ns) := by
  have hw := h'.works
  rw [floorAt_congr h.works.frame h.works.size] at hw
  refine ⟨h.works.trans hw, h'.current.trans h.current, fun m hm => ?_⟩
  rcases mem_append.mp hm with hm | hm
  · exact (h.moments m hm).mono (hw.grows w'.current) (Int.le_refl _) (Int.le_of_eq h'.current.symm)
  · exact h'.moments m hm

theorem silent (h : Computes F w w' ms) (h' : Computes F w' w'' []) : Computes F w w'' ms :=
  append_nil ms ▸ h.trans h'

end Computes

theorem computes_of_works {F : BlockId} {w : Walk} {s : State}
    (hw : AddsCode (floorAt F w.builder) w.builder s) : Computes F w { w with builder := s } [] :=
  ⟨hw, rfl, fun _ hm => (nomatch hm)⟩

section

variable {F : BlockId} {w : Walk}

theorem computes_emitHere (h : Ready F w) (op : Opcode) {x y : Value} (hphi : op ≠ .phi)
    (hempty : op ≠ .empty) (hload : op ≠ .load) (hx : w.builder.view.BoundedSource x.src)
    (hy : w.builder.view.BoundedSource y.src) :
    Yields (emitHere op x y) w fun v w' => Computes F w w' [] ∧
      w'.builder.view.BoundedSource v.src ∧
        (op.isNumbered = false → ∃ i, w'.builder.view.insts v.id = some i ∧ i.op = op) := by
  refine (yields_emitHere op hphi).imp ?_
  rintro v w' ⟨s, rfl, ⟨hnum, -, hv⟩ | ⟨rfl, n, id, -, hv⟩ | ⟨hnum, hv⟩⟩
  · obtain ⟨hw, hb⟩ := h.sound.laid.numberAtEnd h.newest op {} hnum hx hy fun hl => absurd hl hload
    rw [← hv] at hw hb
    exact ⟨computes_of_works hw, hb, fun hn => absurd (hnum.symm.trans hn) nofun⟩
  · have hw := h.sound.laid.const n
    have ht : tagsOf (w.builder.const n).1.src = [] := Laid.tagsOf_const n
    rw [← hv] at hw ht
    refine ⟨computes_of_works hw, fun t hm => ?_, nofun⟩
    rw [show tagsOf v.src = [] from ht] at hm
    cases hm
  · obtain ⟨hw, hb, hi⟩ := h.sound.laid.emitEffect h.newest op hnum hphi hempty hx hy
    rw [← hv] at hw hb hi
    exact ⟨computes_of_works hw, hb, fun _ => hi⟩

theorem computes_loadElement (h : Ready F w) {name : String} {indices : List Value}
    (hindices : ∀ v ∈ indices, w.builder.view.BoundedSource v.src) :
    Yields (loadElement w.current name indices) w.builder fun v s =>
      AddsCode (floorAt F w.builder) w.builder s ∧ s.view.BoundedSource v.src := by
  refine yields_loadElement.imp ?_
  rintro v s ⟨a, ha, -, hv⟩
  have haddr := h.sound.laid.layout.arrays (mem_of_find?_eq_some ha)
  obtain ⟨hw, hb, -⟩ := h.sound.laid.elementAddress h.newest haddr hindices
  have hepoch : w.builder.view.epoch name = some a.epoch := Option.map_eq_some_iff.mpr ⟨a, ha, rfl⟩
  obtain ⟨hw', hb'⟩ := hw.laid.numberAtEnd (hw.size ▸ h.newest) .load ⟨name, a.epoch⟩ rfl hb
    (y := {}) (fun t ht => (nomatch ht)) fun _ => hw.bounded ⟨a.epoch, hepoch, Int.le_refl _⟩
  rw [← hv] at hw' hb'
  exact ⟨hw.trans hw', hb'⟩

theorem operation_ne (op : Operator) : operation op ≠ .phi ∧ operation op ≠ .empty ∧
    operation op ≠ .load := by
  cases op <;> exact ⟨nofun, nofun, nofun⟩

theorem negated_ne (c : Comparison) : negated c ≠ .phi ∧ negated c ≠ .empty ∧
    negated c ≠ .load := by
  cases c <;> exact ⟨nofun, nofun, nofun⟩

theorem boundedSource_absent (V : View) : V.BoundedSource ({} : Value).src :=
  fun _ ht => (nomatch ht)

/-- A call computes its argument, if it has one, and then an operation. -/
theorem computes_lowerCall (h : Ready F w) {fn : Builtin} {pos : Position} {argument : Lower Value}
    {ms : List Moment} (harg : Yields argument w fun v w' => Computes F w w' ms ∧
      w'.builder.view.BoundedSource v.src) :
    Yields (lowerCall fn pos argument) w fun v w' =>
      Computes F w w' (if fn = .outputNum then ms else []) ∧
          w'.builder.view.BoundedSource v.src := by
  cases fn with
  | inputNum =>
    exact (computes_emitHere h .read nofun
      nofun nofun (boundedSource_absent _) (boundedSource_absent _)).imp fun v w' ⟨hc, hb,
      _⟩ => ⟨hc, hb⟩
  | outputNewLine =>
    exact (computes_emitHere h .writeNL nofun
      nofun nofun (boundedSource_absent _) (boundedSource_absent _)).imp fun v w' ⟨hc, hb,
      _⟩ => ⟨hc, hb⟩
  | outputNum =>
    refine .bind (harg.imp fun v w₁ ⟨hc, hb⟩ => ?_)
    exact (computes_emitHere (hc.ready h) .write nofun nofun nofun hb (boundedSource_absent _)).imp
      fun v w' ⟨hc', hb', _⟩ => ⟨hc.silent hc', hb'⟩
  | other name => exact .throw trivial

mutual

/-- An expression computes its value in the current block. -/
theorem computes_lowerExpr (scope : Scope) : ∀ (e : Expr) {w : Walk}, Ready F w →
    Yields (lowerExpr scope e) w fun v w' => Computes F w w' (exprMoments scope e w) ∧
      w'.builder.view.BoundedSource v.src
  | .num n, w, h => by
    refine yields_build (ends_step ⟨?_, fun t ht => ?_⟩)
    · exact computes_of_works (h.sound.laid.const n)
    · rw [Laid.tagsOf_const] at ht
      cases ht
  | .element name [] pos, w, h => by
    refine .bind (yields_within (yields_checkScalar fun _ => .bind (yields_current (yields_build
      (yields_lookup.imp ?_)))) _)
    rintro v s ⟨-, hv⟩
    obtain ⟨hw, ht⟩ := h.sound.laid.readAtEnd (b := w.current) name (some .readFirst)
    rw [← hv] at hw ht
    refine ⟨computes_of_works hw, fun t hm => ?_⟩
    rw [show tagsOf v.src = [] from ht] at hm
    cases hm
  | .element name (e :: es) pos, w, h => by
    refine .bind (yields_within ((computes_lowerIndices scope (e :: es) h).self.imp ?_) _)
    rintro indices w₁ ⟨⟨hc, hb⟩, heq⟩
    have hr := hc.ready h
    refine .bind (yields_current (yields_located (yields_within (yields_callBuilder
      ((computes_loadElement hr hb).self.imp ?_)) _) _ _))
    rintro v s ⟨⟨hw, hv⟩, hload⟩
    refine ⟨hc.trans ⟨hw, rfl, fun m hm => ?_⟩, hv⟩
    rw [follow_ok heq, mem_singleton] at hm
    subst hm
    refine ⟨⟨F, hr⟩, hb, Int.le_refl _, fun v' s' hload' => ?_⟩
    cases hload.symm.trans hload'
    exact .refl _ _
  | .binary op left right, w, h => by
    refine .bind (yields_within ((computes_lowerExpr scope left h).self.imp ?_) _)
    rintro x w₁ ⟨⟨hx, hbx⟩, heq⟩
    refine .bind (yields_within ((computes_lowerExpr scope right (hx.ready h)).imp ?_) _)
    rintro y w₂ ⟨hy, hby⟩
    obtain ⟨hphi, hempty, hload⟩ := operation_ne op
    have hboth := hx.trans hy
    refine yields_within ((computes_emitHere (hboth.ready h) _ hphi hempty hload
      (Laid.BoundedSource.mono hy.works hbx) hby).imp ?_) _
    rintro v w' ⟨hc, hv, -⟩
    refine ⟨?_, hv⟩
    have hms := hboth.silent hc
    simp only [exprMoments, follow_ok heq]
    exact hms
  | .call fn args pos, w, h => by
    refine yields_within ((computes_lowerCall h (computes_lowerArgument scope args h)).imp ?_) _
    rintro v w' hc
    rw [exprMoments]
    exact hc
  | .hole, w, h => .throw trivial

theorem computes_lowerIndices (scope : Scope) : ∀ (es : List Expr) {w : Walk}, Ready F w →
    Yields (lowerIndices scope es) w fun vs w' => Computes F w w' (indicesMoments scope es w) ∧
      ∀ v ∈ vs, w'.builder.view.BoundedSource v.src
  | [], w, h => .pure ⟨computes_of_works (.refl h.sound.laid), fun _ hv => (nomatch hv)⟩
  | e :: es, w, h => by
    refine .bind (yields_within ((computes_lowerExpr scope e h).self.imp ?_) _)
    rintro x w₁ ⟨⟨hx, hbx⟩, heq⟩
    refine .bind ((computes_lowerIndices scope es (hx.ready h)).imp ?_)
    rintro xs w₂ ⟨hxs, hbxs⟩
    refine .pure ⟨?_, fun v hv => ?_⟩
    · simp only [indicesMoments, follow_ok heq]
      exact hx.trans hxs
    · rcases mem_cons.mp hv with rfl | hv
      · exact Laid.BoundedSource.mono hxs.works hbx
      · exact hbxs v hv

theorem computes_lowerArgument (scope : Scope) : ∀ (es : List Expr) {w : Walk}, Ready F w →
    Yields (lowerArgument scope es) w fun v w' => Computes F w w' (argumentMoments scope es w) ∧
      w'.builder.view.BoundedSource v.src
  | [], _, _ => .throw trivial
  | e :: _, _, h => yields_within (computes_lowerExpr scope e h) _

end

/-- A condition computes its branch. -/
theorem computes_lowerRelation (scope : Scope) (r : Relation) (h : Ready F w) :
    Yields (lowerRelation scope r) w fun _ w' => Computes F w w' (relationMoments scope r w) := by
  refine .bind (yields_within ((computes_lowerExpr scope r.left h).self.imp ?_) _)
  rintro x w₁ ⟨⟨hx, hbx⟩, heq⟩
  refine .bind (yields_within ((computes_lowerExpr scope r.right (hx.ready h)).imp ?_) _)
  rintro y w₂ ⟨hy, hby⟩
  have hboth := hx.trans hy
  refine .bind ((computes_emitHere (hboth.ready h) .cmp nofun nofun nofun
    (Laid.BoundedSource.mono hy.works hbx) hby).imp ?_)
  rintro c w₃ ⟨hc, hbc, -⟩
  obtain ⟨hphi, hempty, hload⟩ := negated_ne r.op
  have hall := hboth.silent hc
  refine .bind (yields_within ((computes_emitHere (hall.ready h) _ hphi hempty hload hbc
    (boundedSource_absent _)).imp ?_) _)
  rintro br w' ⟨hbr, -⟩
  refine .pure ?_
  simp only [relationMoments, follow_ok heq]
  exact hall.silent hbr

end

/-! ## Statements -/

/-- The kinds of the open joins, innermost first. -/
def kinds (w : Walk) : List JoinKind :=
  w.builder.contexts.map (·.kind)

/-- A step that goes on in a block below the one it started in. -/
structure Extends (F : BlockId) (w w' : Walk) (ms : List Moment) : Prop where
  ready : Ready F w'
  spans : Spans w.builder.view.size w.current w.builder w'.builder
  current : w.current ≤ w'.current
  below : ∃ X, w'.builder.view.doms w'.current = X ++ w.builder.view.doms w.current ∧
    ∀ x ∈ X, (w.builder.view.size : BlockId) ≤ x
  kinds : kinds w' = kinds w
  moments : ∀ m ∈ ms, Seen w' m

theorem floorAt_of_kinds {F : BlockId} {w w' : Walk} (hk : kinds w' = kinds w)
    (hs : w'.builder.view.size = w.builder.view.size) :
    floorAt F w'.builder = floorAt F w.builder := by
  have hempty : w'.builder.contexts.isEmpty = w.builder.contexts.isEmpty := by
    rw [← isEmpty_map (f := (·.kind)), show w'.builder.contexts.map (·.kind) = _ from hk,
      kinds, isEmpty_map]
  rw [floorAt, floorAt, hempty, hs]

/-- Wherever a part can be lowered, lowering it extends the walk through the moments `ms`. -/
abbrev Extending (part : Lower Unit) (ms : Walk → List Moment) : Prop :=
  ∀ {F w}, Ready F w → Yields part w fun _ w' => Extends F w w' (ms w)

namespace Extends

variable {F : BlockId} {w w' w'' : Walk} {ms ns : List Moment}

theorem trans (h : Extends F w w' ms) (h' : Extends F w' w'' ns) : Extends F w w'' (ms ++ ns) := by
  refine ⟨h'.ready, h.spans.trans h'.spans h.spans.grows.size h.current,
    Int.le_trans h.current h'.current, ?_, h'.kinds.trans h.kinds, fun m hm => ?_⟩
  · obtain ⟨X, hX, hXs⟩ := h.below
    obtain ⟨Y, hY, hYs⟩ := h'.below
    refine ⟨Y ++ X, by rw [hY, hX, append_assoc], fun x hx => ?_⟩
    rcases mem_append.mp hx with hx | hx
    · have := h.spans.grows.size
      exact Int.le_trans (Int.ofNat_le.mpr this) (hYs x hx)
    · exact hXs x hx
  · rcases mem_append.mp hm with hm | hm
    · exact (h.moments m hm).mono h'.spans.grows (Int.le_refl _) h'.current
    · exact h'.moments m hm

theorem refl (h : Ready F w) : Extends F w w [] :=
  ⟨h, .refl _ _ _, Int.le_refl _, ⟨[], rfl, fun _ hx => (nomatch hx)⟩, rfl,
    fun _ hm => (nomatch hm)⟩

end Extends

theorem Computes.extends {F : BlockId} {w w' : Walk} {ms : List Moment} (h : Computes F w w' ms)
    (hr : Ready F w) : Extends F w w' ms := by
  refine ⟨h.ready hr, .of_works h.works, Int.le_of_eq h.current.symm, ⟨[], ?_, nofun⟩,
    congrArg (·.2.2.2) h.works.frame, h.moments⟩
  rw [h.current, nil_append]
  exact (h.works.grows 0).doms_eq hr.isSome_current

section

variable {F : BlockId} {w : Walk}

theorem extends_assign (h : Ready F w) {name : String} {v : Value}
    (hv : w.builder.view.BoundedSource v.src) :
    Computes F w { w with builder := (w.builder.assign w.current name v).2 } [] := by
  refine computes_of_works (h.sound.laid.assign h.newest hv fun hc => ?_)
  have := h.newest
  rw [floorAt, hc]
  show w.current < (w.builder.view.size : BlockId)
  lia

/-- A store is put behind all that there is. -/
theorem extends_storeElement (h : Ready F w) {name : String} {indices : List Value} {v : Value}
    (hindices : ∀ v ∈ indices, w.builder.view.BoundedSource v.src)
    (hv : w.builder.view.BoundedSource v.src) :
    Yields (storeElement w.current name indices v) w.builder fun _ s =>
      Extends F w { w with builder := s } [] := by
  refine yields_storeElement.imp ?_
  rintro _ s ⟨a, ha, -, -, hs⟩
  have haddr := h.sound.laid.layout.arrays (mem_of_find?_eq_some ha)
  obtain ⟨hw, hb, -⟩ := h.sound.laid.elementAddress h.newest haddr hindices
  have hc := computes_of_works hw
  refine nil_append [] ▸ (hc.extends h).trans ?_
  have h₁ := hc.ready h
  generalize w.builder.elementAddress w.current a indices = r at *
  obtain ⟨addr, s₁⟩ := r
  dsimp only at hw hb hc h₁ hs ⊢
  obtain ⟨e, hepoch, -⟩ := hw.bounded (m := ⟨name, a.epoch⟩)
    ⟨a.epoch, Option.map_eq_some_iff.mpr ⟨a, ha, rfl⟩, Int.le_refl _⟩
  have hold := h₁.sound
  obtain ⟨hl, hg, hsize, hgraph⟩ := @Laid.storeAt _ _ _ _ _ h₁.sound.laid h₁.newest name e
    a.epoch hepoch (Laid.BoundedSource.mono hw hv) hb
  obtain ⟨hdef, hkinds⟩ := @Laid.storeAt_frame w.current s₁ v addr name a.epoch
  dsimp only at hl hg hsize hgraph
  rw [← hs] at hl hg hsize hgraph hdef hkinds
  have hfloor : floorAt F s = floorAt F s₁ :=
    @floorAt_of_kinds F { w with builder := s₁ } { w with builder := s } hkinds hsize
  refine ⟨⟨?_, hsize ▸ h₁.newest⟩, .of_graph hg hgraph (hs ▸ s₁.memory_storeAt ..),
    Int.le_refl _, ⟨[], ?_, nofun⟩, hkinds, nofun⟩
  · show Sound (floorAt F s) s
    rw [hfloor]
    exact ⟨hl, hold.deferrals.mono hdef hg, hsize ▸ hold.low,
      fun b c hb hc => hold.closed b c hb (View.children_of_graph hgraph ▸ hc),
      hold.entered.of_graph hgraph⟩
  · rw [nil_append, View.doms, View.doms, hgraph]

theorem extends_lowerAssign (scope : Scope) (d : Designator) {v : Value} (h : Ready F w)
    (hv : w.builder.view.BoundedSource v.src) :
    Yields (lowerAssign scope d v) w fun _ w' =>
      Extends F w w' (indicesMoments scope d.indices w) := by
  unfold lowerAssign
  split
  · rename_i hd
    refine .bind (yields_within (yields_checkScalar fun _ => .bind (yields_current
      (.discard (yields_build (yields_assign.imp ?_))))) _)
    rintro c s ⟨-, -, rfl⟩
    rw [hd]
    exact (extends_assign h hv).extends h
  · rename_i e es hd
    refine .bind (yields_within ((computes_lowerIndices scope (e :: es) h).imp ?_) _)
    rintro indices w₁ ⟨hc, hb⟩
    refine .bind (yields_current (yields_located (yields_within (yields_callBuilder
      ((extends_storeElement (hc.ready h) hb (Laid.BoundedSource.mono hc.works hv)).imp ?_)) _) _
      _))
    rintro _ s hs
    rw [hd]
    exact append_nil (indicesMoments scope (e :: es) w) ▸ (hc.extends h).trans hs

end

end SingleAssignment.Lowering
