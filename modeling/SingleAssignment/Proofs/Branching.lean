import SingleAssignment.Proofs.Cycle
import SingleAssignment.Proofs.Reuse

/-!
# Effects and branches of a program

Every statement leaves its blocks in a known way and has the effects that one walk of its tree meets
(`onward_lowerStmts`). So the active instructions of a finished program have exactly the effects of
its syntax tree, in the same order, and the last active instruction of a block agrees with the edges
of the block.
-/

namespace SingleAssignment

open Code Builder Source List Builder.State

namespace Lowering

section

variable {F : BlockId} {w w' : Walk}

/-! ## Statements -/

/-- A store is an effect of the current block. -/
theorem steps_storeElement (h : CanAdd F w) {name : String} {indices : List Value} {v : Value} :
    Yields (storeElement w.current name indices v) w.builder fun _ s =>
      ∃ id, Steps w.current Want.read [(w.current, id, .store)] w.builder s := by
  refine yields_storeElement.imp ?_
  rintro _ s ⟨a, -, -, -, hs⟩
  have hc : Changes w.current Want.read w.builder
    (w.builder.elementAddress w.current a indices).2 :=
    (h.ongoing.elementAddress (Int.le_refl _) a indices).changes
  have hstore := Steps.storeAt (W := Want.read) (h.ongoing.changes hc) h.ready.start_le
    name a.epoch v (w.builder.elementAddress w.current a indices).1
  exact ⟨_, hs ▸ (Steps.of_changes hc).trans hstore⟩

theorem onward_storeElement (h : CanLower F w) {name : String} {indices : List Value} {v : Value}
    (hindices : ∀ v ∈ indices, w.builder.view.BoundedSource v.src)
    (hv : w.builder.view.BoundedSource v.src) :
    Yields (storeElement w.current name indices v) w.builder fun _ s =>
      Onward w { w with builder := s } [.store] := by
  refine ((steps_storeElement h.canAdd).and yields_storeElement).imp ?_
  rintro _ s ⟨⟨id, hsteps⟩, a, ha, -, -, hs⟩
  have haddr := h.ready.sound.laid.layout.arrays (mem_of_find?_eq_some ha)
  obtain ⟨hw, hb, -⟩ := h.ready.sound.laid.elementAddress h.ready.newest haddr hindices
  generalize w.builder.elementAddress w.current a indices = r at *
  obtain ⟨addr, s₁⟩ := r
  dsimp only at hw hb hs
  obtain ⟨e, hepoch, -⟩ := hw.bounded (m := ⟨name, a.epoch⟩)
    ⟨a.epoch, Option.map_eq_some_iff.mpr ⟨a, ha, rfl⟩, Int.le_refl _⟩
  obtain ⟨-, -, hsize, hgraph⟩ := @Laid.storeAt _ _ _ _ _ hw.laid (hw.size ▸ h.ready.newest) name e
    a.epoch hepoch (Laid.BoundedSource.mono hw hv) hb
  have hdef := (@Laid.storeAt_frame w.current s₁ v addr name a.epoch).1
  rw [← hs] at hsize hgraph hdef
  refine .here (l := [(id, .store)]) rfl ?_ (hgraph.trans hw.graph) (hsize.trans hw.size) h hsteps
    (fun _ => Want.told_of_read) (hdef.trans (congrArg (·.2.2.1) hw.frame))
  refine (hsteps.logged h.timelines).opened h.opened fun a ha _ => ?_
  cases mem_singleton.mp ha
  rfl

/-- An assignment has the effects of its target. -/
theorem onward_lowerAssign (scope : Scope) (d : Designator) {v : Value} (h : CanLower F w)
    (hv : w.builder.view.BoundedSource v.src) (hvi : w.builder.IssuedValue v) :
    Yields (lowerAssign scope d v) w fun _ w' => Onward w w' d.effects := by
  unfold lowerAssign Designator.effects
  split
  · rename_i hd
    refine .bind (yields_within (yields_checkScalar fun _ => .bind (yields_current
      (.discard (yields_build (yields_assign.imp ?_))))) _)
    rintro c s ⟨-, -, rfl⟩
    have hc : Computes F w { w with builder := (w.builder.assign w.current d.name v).2 } [] :=
      extends_assign h.ready hv
    have hsteps : Steps w.current (Want.told w.builder.view.size
      (w.builder.assign w.current d.name v).2.contexts) [] w.builder
      (w.builder.assign w.current d.name v).2 :=
      .of_changes (.assign (isSome_block h.ready.isSome_current) (Int.le_refl _)
        h.opened trivial hvi)
    have honward : Onward w { w with builder := (w.builder.assign w.current d.name v).2 } [] := by
      refine .here (l := []) rfl ?_ hc.works.graph hc.works.size h hsteps (fun a ha => ha)
        (congrArg (·.2.2.1) hc.works.frame)
      exact (hsteps.logged h.timelines).opened h.opened fun a ha => (by cases ha)
    rw [hd]
    exact honward
  · rename_i e es hd
    refine .bind (yields_within (((computes_lowerIndices scope (e :: es) h.ready).and
      (gives_lowerIndices scope (e :: es) h.canAdd)).imp ?_) _)
    rintro indices w₁ ⟨⟨hc, hb⟩, he, -⟩
    have hfirst := he.onward h hc
    have h₁ := hfirst.canLower h (hc.extends h.ready)
    refine .bind (yields_current (yields_located (yields_within (yields_callBuilder
      ((onward_storeElement h₁ hb (Laid.BoundedSource.mono hc.works hv)).and
        (extends_storeElement h₁.ready hb (Laid.BoundedSource.mono hc.works hv)) |>.imp ?_)) _) _
        _))
    rintro _ s ⟨hstore, hext⟩
    rw [hd]
    exact hfirst.trans hstore h₁ hext

mutual

/-- A statement leaves its blocks in a known way and has the effects of its tree. -/
theorem onward_lowerStmt (scope : Scope) : ∀ (st : Stmt) {F : BlockId} {w : Walk}, CanLower F w →
    Yields (lowerStmt scope st) w fun _ w' => Onward w w' st.effects
  | .assign target value pos, F, w, h => by
    refine .bind (yields_within (((computes_lowerExpr scope value h.ready).and
      (gives_lowerExpr scope value h.canAdd)).imp ?_) _)
    rintro v w₁ ⟨⟨hc, hb⟩, he, hv, -⟩
    have hfirst := he.onward h hc
    have h₁ := hfirst.canLower h (hc.extends h.ready)
    refine yields_within (((onward_lowerAssign scope target h₁ hb hv).and
      (extends_lowerAssign scope target h₁.ready hb)).imp ?_) _
    rintro _ w' ⟨hw, hext⟩
    exact hfirst.trans hw h₁ hext
  | .call fn args pos, F, w, h => by
    have harg := computes_lowerArgument scope args h.ready
    refine .discard (yields_within (((computes_lowerCall h.ready harg).and (gives_lowerCall h.canAdd
      (gives_lowerArgument scope args h.canAdd) (harg.imp fun _ _ hw => hw.1.ready h.ready))).imp
      ?_) _)
    rintro _ w' ⟨⟨hc, -⟩, he, -⟩
    exact he.onward h hc
  | .ifThen cond thenPart pos, F, w, h => by
    refine yields_within ((onward_lowerIfThen scope cond h (extends_lowerStmts scope thenPart)
      (onward_lowerStmts scope thenPart)).imp fun _ w' hw => ?_) _
    exact hw
  | .ifElse cond thenPart elsePart pos, F, w, h => by
    refine yields_within ((onward_lowerIfElse scope cond h (extends_lowerStmts scope thenPart)
      (extends_lowerStmts scope elsePart) (onward_lowerStmts scope thenPart)
      (onward_lowerStmts scope elsePart)).imp fun _ w' hw => ?_) _
    exact hw
  | .loop cond body pos, F, w, h => by
    refine yields_within ((onward_lowerLoop scope cond h (extends_lowerStmts scope body)
      (onward_lowerStmts scope body)).imp fun _ w' hw => ?_) _
    exact hw
  | .hole, _, _, _ => .throw trivial

theorem onward_lowerStmts (scope : Scope) : ∀ (ss : List Stmt) {F : BlockId} {w : Walk},
    CanLower F w → Yields (lowerStmts scope ss) w fun _ w' => Onward w w' (Stmt.allEffects ss)
  | [], _, w, h => .pure ⟨.refl w, h.opened, h.childless⟩
  | st :: ss, F, w, h => by
    refine .bind (yields_within (((extends_lowerStmt scope st h.ready).and
      (onward_lowerStmt scope st h)).imp ?_) _)
    rintro _ w₁ ⟨hext, hw₁⟩
    have h₁ := hw₁.canLower h hext
    refine ((extends_lowerStmts scope ss h₁.ready).and (onward_lowerStmts scope ss h₁)).imp ?_
    rintro _ w' ⟨hext', hw'⟩
    exact hw₁.trans hw' h₁ hext'

end

/-! ## Programs -/

theorem changes_consts {W : Want → Prop} (ns : List Int64) {s : State} (hs : Timelines s)
    (hentry : (s.block? entryBlock).isSome) : Changes F W s (s.consts ns).2 := by
  induction ns generalizing s with
  | nil => exact .refl
  | cons n ns ih =>
    have hc := Calm.const hs hentry n
    exact (Changes.const hentry n).trans (ih hc.timelines (hc.isSome_block hentry))

/-- Memory for an array is made of constants. -/
theorem changes_addArray {W : Want → Prop} {s : State} (hs : Timelines s)
    (hentry : (s.block? entryBlock).isSome) (name : String) (dims : List Int64) :
    Changes F W s (s.addArray name dims).2 := by
  let s₁ : State := { s with nextAddress := s.nextAddress + dims.foldl (· * ·) 1 *
    s.settings.wordSize }
  have hentry₁ : (s₁.block? entryBlock).isSome := hentry
  have hc := Calm.const (hs.of_arenas rfl rfl rfl : Timelines s₁) hentry₁ s.nextAddress
  have hstrides := changes_consts (F := F) (W := W) (stridesOf dims) hc.timelines
    (hc.isSome_block hentry₁)
  have hbase : Changes F W s₁ _ := (Changes.const hentry₁ s.nextAddress).trans hstrides
  refine .head (.books rfl rfl (fun _ => rfl) rfl rfl rfl : Change F W s s₁) (hbase.tail ?_)
  exact .books rfl rfl (fun _ => rfl) rfl rfl rfl

/-- Arrays are declared without an effect. -/
theorem changes_declareArrays {W : Want → Prop} (ds : List ArrayDecl) {floor : BlockId}
    (h : Laid floor w.builder) :
    Yields (declareArrays ds) w fun _ w' => w'.current = w.current ∧
      Changes F W w.builder w'.builder ∧ w'.builder.deferrals = w.builder.deferrals := by
  induction ds generalizing w with
  | nil => exact .pure ⟨rfl, .refl, rfl⟩
  | cons d ds ih =>
    refine .bind (yields_located (.discard (yields_build (yields_declareArray.imp ?_))) _ _)
    rintro a s ⟨-, -, -, hs⟩
    obtain ⟨hl, -, -, -, hdef, -⟩ := h.addArray d.name d.dims
    have hc : Changes F W w.builder _ := changes_addArray h.timelines
      (isSome_block h.valid_entry) d.name d.dims
    rw [← hs] at hl hdef hc
    refine (ih (w := { w with builder := s }) hl).imp ?_
    rintro _ w' ⟨hcur, hc', hdef'⟩
    exact ⟨hcur, hc.trans hc', hdef'.trans hdef⟩

theorem canLower_declareArrays (ds : List ArrayDecl) (h : CanLower F w) (hk : kinds w = []) :
    Yields (declareArrays ds) w fun _ w' => CanLower F w' ∧ Onward w w' [] := by
  refine ((ready_declareArrays ds h.ready hk).and
    (changes_declareArrays (F := w.current) (W := Want.read) ds h.ready.sound.laid)).imp ?_
  rintro _ w' ⟨⟨hr, -⟩, hcur, hc, hdef⟩
  have hcalm := Changes.calm hc h.timelines
  have hopen : w'.builder.Open w'.current := hcur ▸ hcalm.opened h.opened
  have hward := Onward.here (l := []) hcur hopen hcalm.graph hcalm.size h (Steps.of_changes hc)
    (fun _ => Want.told_of_read) hdef
  refine ⟨⟨h.toSteady.go (Steps.of_changes hc) hr ?_, hopen, hward.childless⟩, hward⟩
  rw [View.children, View.children, hcalm.graph]

theorem canLower_new (settings : Settings) (F : BlockId) :
    CanLower F { builder := .new settings } := by
  refine ⟨⟨ready_new settings F, rfl, fun v ver hver => (by cases hver),
      fun v ver hver => (by cases hver),
    fun {id i} hi => ?_, fun {id i} hi => ?_, .nil⟩, fun x hx => ?_, rfl⟩
  · rw [inst?_new] at hi
    cases hi
  · rw [inst?_new] at hi
    cases hi
  · rw [timelineOf_new] at hx
    cases hx

/-- What is left of a computation in the end: its body was lowered from the empty state on and ends
in `w`, and `t` is the state when the end of the program was put there and the branches were
resolved. -/
structure Concludes (settings : Settings) (c : Computation) (p : Program) (w : Walk)
    (id : InstId) (t : State) :
    Prop where
  canLower : CanLower 0 w
  body : Onward { builder := .new settings } w (Stmt.allEffects c.body)
  steps : Steps w.current Want.read [(w.current, id, .halt)] w.builder t
  size : t.view.size = w.builder.view.size
  graph : t.view.graph = w.builder.view.graph
  pointed : ∀ d ∈ w.builder.deferrals.toList, Pointed t d
  holds : p.Holds t
  versions : p.versions = t.versions
  diagnostics : p.diagnostics = t.diagnostics
  laid : Laid (floorAt 0 w.builder) t
  lowered : ∃ w₁, declareArrays c.arrays { builder := .new settings } = .ok ⟨⟩ w₁ ∧ CanLower 0 w₁ ∧
    lowerStmts ⟨settings.strict, c.vars.map (·.name)⟩ c.body w₁ = .ok ⟨⟩ w

theorem lower_concludes {settings : Settings} {c : Computation} {p : Program}
    (h : lower settings c = .ok p) : ∃ w id t, Concludes settings c p w id t := by
  obtain ⟨w₁, w₂, w₃, e, h₁, h₂, h₃, rfl⟩ := lower_ok h
  obtain ⟨hp₁, hfirst⟩ := canLower_declareArrays c.arrays (canLower_new settings 0) rfl _ _ h₁
  have hext := extends_lowerStmts _ c.body hp₁.ready _ _ h₂
  have hbody := onward_lowerStmts _ c.body hp₁ _ _ h₂
  have hp₂ := hbody.canLower hp₁ hext
  obtain ⟨v, s, hv, -, ht, hinsts, hblocks, hversions, hwarned⟩ := yields_endProgram _ _ h₃
  obtain ⟨hw, -⟩ := hp₂.ready.sound.laid.emitEffect hp₂.ready.newest .halt rfl nofun nofun
    (boundedSource_absent _) (boundedSource_absent _)
  have hsteps : Steps w₂.current Want.read _ w₂.builder _ :=
    Steps.effect hp₂.canAdd.ongoing hp₂.ready.start_le (show Opcode.halt.hasEffect = true from rfl)
      {} {}
  rw [← hv] at hw hsteps
  have hsound := hp₂.ready.sound.works hw
  have hbr := hsound.laid.resolveBranches hsound.deferrals
  have hall : AddsCode (floorAt 0 w₂.builder) w₂.builder w₃.builder :=
    ht ▸ (hw.trans hbr).trans (hbr.laid.report _)
  have hresolve : Steps w₂.current Want.read [] s w₃.builder :=
    ht ▸ (Steps.resolveBranches hsound.laid.timelines hsound.deferrals).trans
      (.of_changes (Changes.report _))
  have hwhole := hfirst.trans hbody hp₁ hext
  have hleaves : ∀ d ∈ w₂.builder.deferrals.toList, ∃ b, Leaves w₂.builder b d := by
    intro d hd
    rcases hwhole.waits d hd with hd | ⟨b, -, -, -, hb⟩
    · cases hd
    · exact ⟨b, hb⟩
  have hdef : s.deferrals = w₂.builder.deferrals := congrArg (·.2.2.1) hw.frame
  have hdist : Distinct s.deferrals.toList := by
    rw [hdef]
    intro d hd d' hd' hinst
    obtain ⟨b, hb⟩ := hleaves d hd
    obtain ⟨b', hb'⟩ := hleaves d' hd'
    exact hb.eq hp₂.timelines hb' hinst
  have hpointed : ∀ d ∈ w₂.builder.deferrals.toList, Pointed w₃.builder d := by
    rw [← hdef, ht]
    exact hsound.laid.timelines.pointed_resolveBranches hsound.deferrals hdist
  exact ⟨w₂, v.id, w₃.builder, hp₂, hwhole, hsteps.andThen hresolve, hall.size,
    hall.graph, hpointed, ⟨hinsts, hblocks⟩, hversions, hwarned, hall.laid, w₁, h₁, hp₁, h₂⟩

end

end Lowering

/-! ## The active instructions of a block -/

namespace Program.Holds

variable {p : Program} {t : State} {b : BlockId} {blk : Block}

theorem order_eq (h : p.Holds t) (hb : p.block? b = some blk) :
    p.order blk = (((t.timelineOf b).filterMap Slot.inst?).filterMap t.inst?).filter
      (·.active) := by
  have hinst : p.inst? = t.inst? := funext h.inst?_eq
  rw [h.block?_eq] at hb
  rw [Program.order, hinst, State.timelineOf, hb]
  rfl

/-- The effects of a block are those of its active instructions. -/
theorem acts_eq (h : p.Holds t) (ht : Timelines t) (hb : p.block? b = some blk) :
    ((p.order blk).filter (·.op.hasEffect)).map (fun i => (i.id, i.op)) = t.acts b := by
  rw [h.order_eq hb, State.acts]
  generalize t.timelineOf b = time
  induction time with
  | nil => rfl
  | cons x time ih =>
    cases x with
    | mark v => exact ih
    | inst id =>
      cases hi : t.inst? id with
      | none => simpa [Slot.inst?, State.act?, hi] using ih
      | some i =>
        have hid := ht.id_eq hi
        cases hactive : i.active <;> cases heffect : i.op.hasEffect <;>
          simpa [Slot.inst?, State.act?, hi, hactive, heffect, hid] using ih

/-- The first active instruction of a block is what branches to the block go to. -/
theorem head?_order (h : p.Holds t) (ht : Timelines t) (hb : p.block? b = some blk) :
    (p.order blk).head?.map (·.id) = t.firstActive? b := by
  rw [h.order_eq hb, State.firstActive?]
  generalize (t.timelineOf b).filterMap Slot.inst? = ids
  induction ids with
  | nil => rfl
  | cons id ids ih =>
    cases hi : t.inst? id with
    | none => simpa [State.isLive, hi] using ih
    | some i =>
      have hid := ht.id_eq hi
      cases hactive : i.active
      · simpa [State.isLive, hi, hactive] using ih
      · simp [State.isLive, hi, hactive, hid]

/-- No active instruction stands behind a branch or the end of the program. -/
theorem pairwise_order (h : p.Holds t) (ht : t.Tidy) (hb : p.block? b = some blk) :
    (p.order blk).Pairwise fun i _ => i.op.isTerminator = false := by
  have hends : ∀ {x : Slot} {i : Instruction}, x.inst?.bind t.inst? = some i → i.active = true →
      i.op.isTerminator = true → t.isEnd x = true := by
    intro x i hi hactive hend
    cases x with
    | mark v => cases hi
    | inst id =>
      replace hi : t.inst? id = some i := hi
      simp [State.isEnd, State.act?, hi, hactive, hend, Opcode.hasEffect_of_isTerminator hend]
  rw [h.order_eq hb, filterMap_filterMap]
  refine pairwise_filter.mpr (List.Pairwise.filterMap _
    (fun x y hxy i hi j hj hactive hactive' => ?_) (ht.last b))
  by_contra hend
  obtain ⟨-, hnone⟩ := hxy (hends hi hactive (by simpa using hend))
  rw [hnone] at hj
  cases hj

end Program.Holds

/-! ## Effects -/

theorem flatMap_eq_range {α β : Type} (xs : List α) (f : α → List β) :
    xs.flatMap f = (List.range xs.length).flatMap fun k => xs[k]?.elim [] f := by
  induction xs with
  | nil => rfl
  | cons x xs ih => simp [range_succ_eq_map, flatMap_map, ih]

/-- What is sorted by a key is made of its parts with one key each, in the order of keys. -/
theorem flatMap_filter_range {α : Type} {key : α → BlockId} {l : List α}
    (hsorted : l.Pairwise fun a b => key a ≤ key b) (hnonneg : ∀ a ∈ l, 0 ≤ key a) (n : Nat) :
    ((List.range n).flatMap fun k : Nat => l.filter fun a => key a = k) = l.filter
    fun a => key a < n := by
  induction n with
  | zero =>
    symm
    simpa using hnonneg
  | succ n ih =>
    rw [range_succ, flatMap_append, ih, flatMap_singleton]
    clear ih hnonneg
    induction hsorted with
    | nil => rfl
    | @cons a l hle _ ih =>
      by_cases hlt : key a < n
      · have hne : key a ≠ n := Int.ne_of_lt hlt
        have hlt' : key a < (n + 1 : Nat) := by lia
        rw [filter_cons_of_pos (by simpa using hlt), filter_cons_of_neg (by simpa using hne),
          filter_cons_of_pos (by simpa using hlt'), cons_append, ih]
      · have hge : ∀ b ∈ a :: l, (n : Int) ≤ key b := by
          refine forall_mem_cons.mpr ⟨Int.not_lt.mp hlt, fun b hb => ?_⟩
          exact (Int.not_lt.mp hlt).trans (hle b hb)
        rw [filter_eq_nil_iff.mpr fun b hb => by simpa using hge b hb, nil_append]
        refine filter_congr fun b hb => decide_eq_decide.mpr ?_
        have := hge b hb
        lia

namespace Lowering

variable {settings : Settings} {c : Computation} {p : Program} {w : Walk} {id : InstId} {t : State}

theorem acts_new (settings : Settings) (b : BlockId) : (State.new settings).acts b = [] := by
  rw [State.acts, timelineOf_new]
  rfl

theorem tidy_new (settings : Settings) : (State.new settings).Tidy := by
  refine ⟨fun b => ?_, fun x hx => ?_⟩
  · rw [timelineOf_new]
    exact .nil
  · rw [timelineOf_new] at hx
    cases hx

namespace Concludes

theorem timelines (h : Concludes settings c p w id t) : Timelines t :=
  (h.steps.logged h.canLower.timelines).timelines

/-- Nothing stands behind the end of a block. -/
theorem tidy (h : Concludes settings c p w id t) : t.Tidy := by
  obtain ⟨l, -, -, -, hsteps⟩ := h.body.tells
  exact (h.steps.logged h.canLower.timelines).tidy
    ((hsteps.logged (canLower_new settings 0).timelines).tidy (tidy_new settings))

/-- The effects are told block after block. -/
theorem told (h : Concludes settings c p w id t) : ∃ l : List (BlockId × InstId × Opcode),
    l.map (·.2.2) = c.effects ∧ l.Pairwise (fun a b => a.1 ≤ b.1) ∧
      (∀ a ∈ l, startBlock ≤ a.1 ∧ a.1 ≤ w.current) ∧
    ∀ b, t.acts b = (l.filter (·.1 = b)).map (·.2) := by
  obtain ⟨l, hops, hsorted, hin, hsteps⟩ := h.body.tells
  have hacts := (hsteps.logged (canLower_new settings 0).timelines).acts
  have hacts' := (h.steps.logged h.canLower.timelines).acts
  refine ⟨l ++ [(w.current, id, .halt)], ?_, ?_, ?_, fun b => ?_⟩
  · rw [map_append, hops]
    rfl
  · refine pairwise_append.mpr ⟨hsorted, pairwise_singleton .., fun a ha a' ha' => ?_⟩
    rw [mem_singleton.mp ha']
    exact (hin a ha).2
  · intro a ha
    rcases mem_append.mp ha with ha | ha
    · exact hin a ha
    · rw [mem_singleton.mp ha]
      exact ⟨h.canLower.ready.start_le, Int.le_refl _⟩
  · rw [hacts', hacts, acts_new, nil_append, filter_append, map_append]

end Concludes

/-- The active instructions of a lowered program that have an effect are exactly those that one walk
of the syntax tree from left to right meets. -/
theorem effects_of_lower {settings : Settings} {c : Computation} {p : Program}
    (h : lower settings c = .ok p) : (p.active.map (·.op)).filter Opcode.hasEffect = c.effects := by
  obtain ⟨w, id, t, hc⟩ := lower_concludes h
  obtain ⟨l, hops, hsorted, hin, hacts⟩ := hc.told
  have hsize : (p.blocks.size : Int) = w.current + 1 := by
    rw [hc.holds.blocks]
    exact (congrArg Nat.cast hc.size).trans hc.canLower.ready.newest.symm
  have hblock : ∀ k : Nat,
      p.blocks.toList[k]?.elim [] (fun blk => ((p.order blk).filter (·.op.hasEffect)).map (·.op)) =
        (l.filter fun a => a.1 = (k : Int)).map (·.2.2) := by
    intro k
    cases hk : p.blocks.toList[k]? with
    | none =>
      have hle : p.blocks.size ≤ k := by simpa using hk
      rw [filter_eq_nil_iff.mpr]
      · rfl
      · intro a ha
        have := (hin a ha).2
        simp only [decide_eq_true_eq]
        lia
    | some blk =>
      have hblk : p.block? k = some blk := by simpa [Program.block?] using hk
      have hops := congrArg (List.map Prod.snd)
        ((hc.holds.acts_eq hc.timelines hblk).trans (hacts k))
      rw [map_map, map_map] at hops
      exact hops
  calc (p.active.map (·.op)).filter Opcode.hasEffect
      = p.blocks.toList.flatMap fun blk => ((p.order blk).filter (·.op.hasEffect)).map (·.op) := by
        rw [Program.active, filter_map, filter_flatMap, map_flatMap]
        rfl
    _ = (List.range p.blocks.toList.length).flatMap fun k : Nat =>
      (l.filter fun a => a.1 = (k : Int)).map (·.2.2) := by
        rw [flatMap_eq_range]
        exact congrArg (List.range p.blocks.toList.length).flatMap (funext hblock)
    _ = (l.filter fun a => a.1 < (p.blocks.toList.length : Int)).map (·.2.2) := by
        rw [← map_flatMap, flatMap_filter_range hsorted fun a ha => ?_]
        exact (hin a ha).1.trans' (by decide)
    _ = c.effects := by
        rw [filter_eq_self.mpr, hops]
        intro a ha
        have := (hin a ha).2
        simp; lia

/-- A loop that writes and stores, with an `if` in it. -/
def storeInLoop : Computation where
  vars := []
  arrays := [⟨"a", [4], .start⟩]
  body :=
    let x : Expr := .element "x" [] .start
    [.assign ⟨"x", [], .start⟩ (.call .inputNum [] .start) .start,
      .loop ⟨.less, x, .num 4⟩
        [.assign ⟨"a", [x], .start⟩ (.call .inputNum [] .start) .start,
          .ifElse ⟨.equal, .element "a" [x] .start, .num 0⟩
            [.call .outputNum [x] .start] [.call .outputNewLine [] .start] .start,
          .assign ⟨"x", [], .start⟩ (.binary .add x (.num 1)) .start] .start]

theorem effects_storeInLoop : ∃ p, lower {} storeInLoop = .ok p ∧
    (p.active.map (·.op)).filter Opcode.hasEffect =
      [.read, .bge, .read, .store, .bne, .write, .bra, .writeNL, .bra, .halt] := by
  have hok : (lower {} storeInLoop).toOption.isSome = true := by decide +kernel
  cases hp : lower {} storeInLoop with
  | error r => simp [hp, Except.toOption] at hok
  | ok p => exact ⟨p, rfl, (effects_of_lower hp).trans (by decide)⟩

end Lowering

/-! ## Exits -/

/-- How control leaves a block: by a branch that is taken or not, by a jump, not at all since the
program ends, or behind its last instruction. -/
inductive Exit where
  | branch | jump | halt | fall
  deriving DecidableEq, Repr

namespace Program

/-- An operand names the first active instruction of a block. -/
def Enters (p : Program) (o : Operand) (b : BlockId) : Prop :=
  ∃ blk first, p.block? b = some blk ∧ (p.order blk).head? = some first ∧ o = .inst first.id

/-- What a block is like that control leaves in a given way: its last active instruction, its
children and the target of its branch agree. -/
def LeftBy (p : Program) (blk : Block) : Exit → Prop
  | .branch =>
    ∃ i f t, (p.order blk).getLast? = some i ∧ i.op.isConditional = true ∧ blk.children = [f, t] ∧
      p.Enters i.y t
  | .jump =>
    ∃ i t, (p.order blk).getLast? = some i ∧ i.op = .bra ∧ blk.children = [t] ∧ p.Enters i.x t
  | .halt => ∃ i, (p.order blk).getLast? = some i ∧ i.op = .halt ∧ blk.children = []
  | .fall => ∃ t, (∀ i ∈ p.order blk, i.op.isTerminator = false) ∧ blk.children = [t]

/-- How control leaves a block by its last active instruction. -/
def exitOf (p : Program) (blk : Block) : Exit :=
  match (p.order blk).getLast? with
  | some i =>
    if i.op.isConditional then .branch
    else if i.op = .bra then .jump
    else if i.op = .halt then .halt
    else .fall
  | none => .fall

variable {p : Program} {blk : Block}

/-- Control leaves a block in one way only. -/
theorem LeftBy.eq {e : Exit} (h : p.LeftBy blk e) : e = p.exitOf blk := by
  unfold exitOf
  cases e with
  | branch =>
    obtain ⟨i, f, t, hlast, hop, -⟩ := h
    simp [hlast, hop]
  | jump =>
    obtain ⟨i, t, hlast, hop, -⟩ := h
    simp [hlast, hop, Opcode.isConditional]
  | halt =>
    obtain ⟨i, hlast, hop, -⟩ := h
    simp [hlast, hop, Opcode.isConditional]
  | fall =>
    obtain ⟨t, hnone, -⟩ := h
    cases hlast : (p.order blk).getLast? with
    | none => rfl
    | some i =>
      have hend := hnone i (mem_of_getLast? hlast)
      simp only [Opcode.isTerminator, Opcode.isBranch, Bool.or_eq_false_iff,
        beq_eq_false_iff_ne] at hend
      simp [hend]

namespace Holds

variable {t : State} {b : BlockId}

theorem inst?_of_mem_order (h : p.Holds t) (ht : Timelines t) (hb : p.block? b = some blk)
    {i : Instruction} (hi : i ∈ p.order blk) : t.inst? i.id = some i := by
  rw [h.order_eq hb] at hi
  obtain ⟨id, -, hid⟩ := mem_filterMap.mp (mem_filter.mp hi).1
  rwa [ht.id_eq hid]

/-- The branch or the end among the effects of a block is its last active instruction. -/
theorem getLast?_order (h : p.Holds t) (ht : Timelines t) (htidy : t.Tidy)
    (hb : p.block? b = some blk) {l : List (InstId × Opcode)} {id : InstId} {op : Opcode}
    (hacts : t.acts b = l ++ [(id, op)]) (hop : op.isTerminator = true) : ∃ i,
    (p.order blk).getLast? = some i ∧ t.inst? id = some i ∧ i.op = op := by
  have hmem : (id, op) ∈ t.acts b := hacts ▸ mem_append_right _ (mem_singleton_self _)
  rw [← h.acts_eq ht hb] at hmem
  obtain ⟨i, hi, he⟩ := mem_map.mp hmem
  cases he
  have hi := (mem_filter.mp hi).1
  obtain ⟨A, B, hsplit⟩ := append_of_mem hi
  have hpair := h.pairwise_order htidy hb
  rw [hsplit, pairwise_append] at hpair
  have hlast : B = [] := eq_nil_iff_forall_not_mem.mpr fun j hj => by
    rw [(pairwise_cons.mp hpair.2.1).1 j hj] at hop
    cases hop
  refine ⟨i, ?_, h.inst?_of_mem_order ht hb hi, rfl⟩
  rw [hsplit, hlast, getLast?_concat]

theorem isTerminator_eq_false (h : p.Holds t) (ht : Timelines t) (hb : p.block? b = some blk)
    (hacts : ∀ a ∈ t.acts b, a.2.isTerminator = false) {i : Instruction} (hi : i ∈ p.order blk) :
    i.op.isTerminator = false := by
  by_contra hend
  have hend : i.op.isTerminator = true := by simpa using hend
  have hmem : (i.id, i.op) ∈ t.acts b := by
    rw [← h.acts_eq ht hb]
    exact mem_map.mpr ⟨i, mem_filter.mpr ⟨hi, Opcode.hasEffect_of_isTerminator hend⟩, rfl⟩
  rw [hacts _ hmem] at hend
  cases hend

/-- A branch that points at its block enters it. -/
theorem enters (h : p.Holds t) (ht : Timelines t) {d : Deferral} (hd : Pointed t d)
    {i : Instruction} (hi : t.inst? d.inst = some i) : p.Enters (i.slot d.side) d.target := by
  obtain ⟨i', first, hi', hslot, hfirst⟩ := hd
  rw [hi] at hi'
  cases hi'
  cases hblk : p.block? d.target with
  | none =>
    rw [State.firstActive?, State.timelineOf, ← h.block?_eq, hblk] at hfirst
    cases hfirst
  | some blk =>
    rw [← h.head?_order ht hblk] at hfirst
    obtain ⟨j, hj, rfl⟩ := Option.map_eq_some_iff.mp hfirst
    exact ⟨blk, j, hblk, hj, hslot⟩

end Holds

end Program

namespace Lowering

variable {settings : Settings} {c : Computation} {p : Program} {w : Walk} {id : InstId} {t : State}

namespace Concludes

theorem acts_eq (h : Concludes settings c p w id t) (b : BlockId) :
    t.acts b = w.builder.acts b ++ if w.current = b then [(id, .halt)] else [] := by
  rw [(h.steps.logged h.canLower.timelines).acts]
  by_cases hb : w.current = b <;> simp [hb]

theorem children_eq (h : Concludes settings c p w id t) {b : BlockId} {blk : Block}
    (hb : p.block? b = some blk) : blk.children = w.builder.view.children b := by
  have hchildren := h.holds.childrenOf_eq b
  rw [View.children, h.graph] at hchildren
  rw [View.children, ← hchildren, Program.childrenOf, hb]
  rfl

theorem le_current (h : Concludes settings c p w id t) {b : BlockId} {blk : Block}
    (hb : p.block? b = some blk) : entryBlock ≤ b ∧ b ≤ w.current := by
  rw [h.holds.block?_eq] at hb
  have hvalid := (h.canLower.ready.sound.laid.layout.graph.valid b).mp
    (h.graph ▸ isSome_view_graph.mpr ⟨blk, hb⟩)
  have := h.canLower.ready.newest
  exact ⟨hvalid.1, by lia⟩

/-- The last block ends the program. -/
theorem leftBy_current (h : Concludes settings c p w id t) {blk : Block}
    (hb : p.block? w.current = some blk) : p.LeftBy blk .halt := by
  have hacts := h.acts_eq w.current
  rw [if_pos rfl] at hacts
  obtain ⟨i, hlast, -, hop⟩ := h.holds.getLast?_order h.timelines h.tidy hb hacts rfl
  exact ⟨i, hlast, hop, (h.children_eq hb).trans h.canLower.childless⟩

/-- A block in front of the last is left in a known way. -/
theorem leftBy_of_exits (h : Concludes settings c p w id t) {b : BlockId} {blk : Block}
    (hb : p.block? b = some blk) (hne : w.current ≠ b) (hexits : Exits w.builder b) : ∃ e,
    e ≠ .halt ∧ p.LeftBy blk e := by
  have hacts := h.acts_eq b
  rw [if_neg hne, append_nil] at hacts
  cases hexits with
  | falls hnone hchildren =>
    rw [← hacts] at hnone
    exact ⟨.fall, by decide, _, fun i hi => h.holds.isTerminator_eq_false h.timelines hb hnone hi,
      (h.children_eq hb).trans hchildren⟩
  | waits hd hleaves =>
    cases hleaves with
    | jump hacts' hside hchildren =>
      obtain ⟨i, hlast, hi, hop⟩ := h.holds.getLast?_order h.timelines h.tidy hb
        (hacts.trans hacts') rfl
      have henters := h.holds.enters h.timelines (h.pointed _ hd) hi
      rw [hside] at henters
      exact ⟨.jump, by decide, i, _, hlast, hop, (h.children_eq hb).trans hchildren, henters⟩
    | branch hacts' hcond hside hchildren =>
      obtain ⟨i, hlast, hi, hop⟩ := h.holds.getLast?_order h.timelines h.tidy hb
        (hacts.trans hacts') (by simp [Opcode.isTerminator, Opcode.isBranch, hcond])
      have henters := h.holds.enters h.timelines (h.pointed _ hd) hi
      rw [hside] at henters
      exact ⟨.branch, by decide, i, _, _, hlast, hop ▸ hcond,
        (h.children_eq hb).trans hchildren, henters⟩

/-- How a block of a finished program is left. -/
theorem leftBy (h : Concludes settings c p w id t) {b : BlockId} {blk : Block}
    (hb : p.block? b = some blk) : ∃ e, p.LeftBy blk e ∧ (e = .halt ↔ b = w.current) := by
  obtain ⟨hpos, hle⟩ := h.le_current hb
  by_cases hcur : b = w.current
  · subst hcur
    exact ⟨.halt, h.leftBy_current hb, fun _ => rfl, fun _ => rfl⟩
  · have hexits : Exits w.builder b := by
      by_cases hentry : b = entryBlock
      · subst hentry
        refine .falls (fun a ha => ?_) h.canLower.gate
        have hfront : entryBlock < startBlock := by decide
        rw [h.body.tells.acts (canLower_new settings 0).timelines (.inl hfront), acts_new] at ha
        cases ha
      · have hstart : startBlock ≤ b := by
          unfold startBlock entryBlock at *
          lia
        exact h.body.exits b hstart (by lia) (by simp)
    obtain ⟨e, he, hleft⟩ := h.leftBy_of_exits hb (Ne.symm hcur) hexits
    exact ⟨e, hleft, fun heq => absurd heq he, fun heq => absurd heq hcur⟩

end Concludes

/-- Branches and edges of a lowered program agree: control leaves each block in exactly one way, one
block only ends the program, and no active instruction stands behind a branch or the end. -/
theorem exits_of_lower {settings : Settings} {c : Computation} {p : Program}
    (h : lower settings c = .ok p) :
    (∀ blk ∈ p.blocks, (∃! e, p.LeftBy blk e) ∧ (p.order blk).Pairwise
      fun i _ => i.op.isTerminator = false) ∧
    ∃! b, ∃ blk, p.block? b = some blk ∧ p.LeftBy blk .halt := by
  obtain ⟨w, id, t, hc⟩ := lower_concludes h
  refine ⟨fun blk hblk => ?_, w.current, ?_, ?_⟩
  · obtain ⟨k, hk⟩ := Array.mem_iff_getElem?.mp hblk
    have hb : p.block? k = some blk := by simpa [Program.block?] using hk
    obtain ⟨e, hleft, -⟩ := hc.leftBy hb
    exact ⟨⟨e, hleft, fun e' hleft' => hleft'.eq.trans hleft.eq.symm⟩,
      hc.holds.pairwise_order hc.tidy hb⟩
  · obtain ⟨blk, hb⟩ := isSome_view_graph.mp (hc.graph ▸ hc.canLower.ready.isSome_current)
    rw [← hc.holds.block?_eq] at hb
    exact ⟨blk, hb, hc.leftBy_current hb⟩
  · rintro b ⟨blk, hb, hhalt⟩
    obtain ⟨e, hleft, hiff⟩ := hc.leftBy hb
    exact hiff.mp (hleft.eq.trans hhalt.eq.symm)

theorem exits_storeInLoop : ∃ p, lower {} storeInLoop = .ok p ∧
    p.blocks.toList.map p.exitOf = [.fall, .fall, .branch, .branch, .jump, .fall, .jump, .halt] ∧
    (∀ blk ∈ p.blocks, p.LeftBy blk (p.exitOf blk)) := by
  have hany : (lower {} storeInLoop).toOption.any (fun p =>
      p.blocks.toList.map p.exitOf == [.fall, .fall, .branch, .branch, .jump, .fall, .jump,
        .halt]) = true := by
    decide +kernel
  cases hp : lower {} storeInLoop with
  | error r => simp [hp, Except.toOption] at hany
  | ok p =>
    simp only [hp, Except.toOption, Option.any_some, beq_iff_eq] at hany
    refine ⟨p, rfl, hany, fun blk hblk => ?_⟩
    obtain ⟨e, hleft, -⟩ := ((exits_of_lower hp).1 blk hblk).1
    exact hleft.eq ▸ hleft

end Lowering

end SingleAssignment
