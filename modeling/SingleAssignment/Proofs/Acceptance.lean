import Mathlib.Data.List.Permutation
import SingleAssignment.Proofs.Failure
import SingleAssignment.Proofs.Leniency
import SingleAssignment.Proofs.Usage

/-!
# What is accepted

A text that can be read is lowered just if every designator in it is used well, and otherwise the
fault blames one that is not (`accepts_iff_wellUsed`). No other failure of the builder is ever met:
lowering calls it with blocks and instructions that are there, closes each join that it opened, and
gives a join its two parents.

A step of lowering decides on the designators in what it lowers (`Decides`): it comes to its end
just if all of them are used well.
-/

namespace SingleAssignment.Lowering

open Code Builder Source List Builder.State

/-- A fault blames a designator for not being used well. -/
inductive Blames (c : Computation) (strict : Bool) (d : Designator) : Fault → Prop
  | noArray (hindices : d.indices ≠ []) (hnone : ∀ a ∈ c.arrays, a.name ≠ d.name) :
      Blames c strict d (.builder (.noArray d.name))
  | indexCount {a : ArrayDecl} (hindices : d.indices ≠ []) (ha : a ∈ c.arrays)
      (hname : a.name = d.name) (hcount : d.indices.length ≠ a.dims.length) :
      Blames c strict d (.builder (.indexCount d.name a.dims.length d.indices.length))
  | arrayAsScalar {a : ArrayDecl} (hindices : d.indices = []) (ha : a ∈ c.arrays)
      (hname : a.name = d.name) :
      Blames c strict d (.arrayAsScalar d.pos d.name)
  | undeclared (hindices : d.indices = []) (hstrict : strict = true)
      (hnone : ∀ v ∈ c.vars, v.name ≠ d.name) :
      Blames c strict d (.undeclared d.pos d.name)

/-- Where no two arrays have one name, a designator that is blamed is not used well. -/
theorem Blames.not_allows {c : Computation} {strict : Bool} {d : Designator} {fault : Fault}
    (h : Blames c strict d fault) (hc : (c.arrays.map (·.name)).Nodup) : ¬ c.Allows strict d := by
  intro hd
  unfold Computation.Allows at hd
  cases h with
  | noArray hindices hnone =>
    rw [if_neg hindices] at hd
    obtain ⟨a, ha, hname, -⟩ := hd
    exact hnone a ha hname
  | indexCount hindices ha hname hcount =>
    rw [if_neg hindices] at hd
    obtain ⟨a', ha', hname', hcount'⟩ := hd
    obtain rfl := inj_on_of_nodup_map hc ha ha' (hname.trans hname'.symm)
    exact hcount hcount'.symm
  | arrayAsScalar hindices ha hname =>
    rw [if_pos hindices] at hd
    exact hd.1 _ ha hname
  | undeclared hindices hstrict hnone =>
    rw [if_pos hindices] at hd
    obtain ⟨v, hv, hname⟩ := hd.2 hstrict
    exact hnone v hv hname

/-- The arrays that a state knows are those that are declared. -/
def Tabled (c : Computation) (s : State) : Prop :=
  s.arrays.map (fun a => (a.name, a.dims)) = c.arrays.map fun a => (a.name, a.dims)

namespace Tabled

variable {c : Computation} {s t : State}

theorem of_memory (h : Tabled c s) (hm : t.memory = s.memory) : Tabled c t := by
  have harrays : t.arrays.map (fun a => { a with epoch := 0 }) = s.arrays.map
    fun a => { a with epoch := 0 } :=
    congrArg (·.2) hm
  have hpairs := congrArg (List.map fun a : ArrayInfo => (a.name, a.dims)) harrays
  rw [map_map, map_map] at hpairs
  exact Eq.trans hpairs h

theorem of_none (h : Tabled c s) {name : String} (hnone : s.array? name = none) :
    ∀ a ∈ c.arrays, a.name ≠ name := by
  intro a ha hname
  have hmem : (a.name, a.dims) ∈ s.arrays.map fun a => (a.name, a.dims) := by
    rw [show s.arrays.map _ = _ from h]
    exact mem_map_of_mem ha
  obtain ⟨b, hb, heq⟩ := mem_map.mp hmem
  have hb' := find?_eq_none.mp hnone b hb
  exact hb' (by simpa using (congrArg Prod.fst heq).trans hname)

theorem of_some (h : Tabled c s) {name : String} {a : ArrayInfo} (ha : s.array? name = some a) :
    ∃ d ∈ c.arrays, d.name = name ∧ d.dims = a.dims := by
  have hname : a.name = name := by simpa using find?_some ha
  have hmem : (a.name, a.dims) ∈ c.arrays.map fun a => (a.name, a.dims) := by
    rw [← show s.arrays.map _ = _ from h]
    exact mem_map_of_mem (mem_of_find?_eq_some ha)
  obtain ⟨d, hd, heq⟩ := mem_map.mp hmem
  exact ⟨d, hd, (congrArg Prod.fst heq).trans hname, congrArg Prod.snd heq⟩

end Tabled

/-! ## Deciding on designators -/

/-- A step of lowering comes to its end just if designators are used well, and otherwise it blames
one of them. -/
def Decides {α : Type} (c : Computation) (strict : Bool) (m : Lower α) (w : Walk)
    (ds : List Designator) (P : α → Walk → Prop) : Prop :=
  Ends m w (fun r _ => ∃ d ∈ ds, Blames c strict d r.fault) fun a w' => (∀ d ∈ ds,
    c.Allows strict d) ∧ P a w'

namespace Decides

variable {α β : Type} {c : Computation} {strict : Bool} {m : Lower α} {f : α → Lower β} {w : Walk}
  {ds es : List Designator} {P Q : α → Walk → Prop} {R : β → Walk → Prop}

theorem imp (h : Decides c strict m w ds P) (hQ : ∀ a w', P a w' → Q a w') :
    Decides c strict m w ds Q :=
  Ends.imp h fun a w' ⟨hd, hp⟩ => ⟨hd, hQ a w' hp⟩

theorem and (h : Decides c strict m w ds P) (hy : Yields m w Q) :
    Decides c strict m w ds fun a w' => P a w' ∧ Q a w' :=
  (Ends.and h hy).imp fun _ _ ⟨⟨hd, hp⟩, hq⟩ => ⟨hd, hp, hq⟩

/-- A step that cannot fail decides on nothing. -/
theorem of_never (hn : Never m w) (hy : Yields m w P) : Decides c strict m w [] P :=
  (Ends.and hn hy).mono (fun _ _ hf => hf.elim) fun _ _ ⟨_, hp⟩ => ⟨fun _ hd => (by cases hd), hp⟩

theorem pure {a : α} (h : P a w) : Decides c strict (Pure.pure a) w [] P :=
  of_never (.pure trivial) (.pure h)

theorem bind (h : Decides c strict m w ds fun a w' => Decides c strict (f a) w' es R) :
    Decides c strict (m >>= f) w (ds ++ es) R := by
  refine Ends.bind (Ends.mono h ?_ fun a w' ⟨hd, hf⟩ => Ends.mono hf ?_ fun b w'' ⟨he, hr⟩ =>
    ⟨fun d hmem => ?_, hr⟩)
  · rintro r w' ⟨d, hd, hblame⟩
    exact ⟨d, mem_append_left _ hd, hblame⟩
  · rintro r w' ⟨d, hd, hblame⟩
    exact ⟨d, mem_append_right _ hd, hblame⟩
  · exact (mem_append.mp hmem).elim (hd d) (he d)

/-- The last step of some decides on nothing more. -/
theorem last (h : Decides c strict m w ds fun a w' => Decides c strict (f a) w' [] R) :
    Decides c strict (m >>= f) w ds R :=
  append_nil ds ▸ bind h

/-- The first step of some decides on nothing. -/
theorem first (h : Decides c strict m w [] fun a w' => Decides c strict (f a) w' es R) :
    Decides c strict (m >>= f) w es R :=
  bind h

theorem within (h : Decides c strict m w ds P) (site : Site) :
    Decides c strict (Lowering.within site m) w ds P :=
  ends_within (E := fun e _ => ∃ d ∈ ds, Blames c strict d e) h site

theorem located (h : Decides c strict m w ds P) (pos : Position) (site : Site) :
    Decides c strict (Lowering.located pos site m) w ds P :=
  ends_located (E := fun e _ => ∃ d ∈ ds, Blames c strict d e) h pos site

theorem discard {R : PUnit → Walk → Prop} (h : Decides c strict m w ds fun _ w' => R ⟨⟩ w') :
    Decides c strict (Functor.discard m) w ds R :=
  Ends.discard h

theorem callBuilder {act : Build α} {trail : Builder.Error → List Site}
    (hn : Never act w.builder) (hy : Yields act w.builder fun a s => P a { w with builder := s }) :
    Decides c strict (Lowering.callBuilder trail act) w [] P :=
  of_never (ends_callBuilder (E := fun _ _ => False) hn) (yields_callBuilder hy)

theorem current {P : BlockId → Walk → Prop} (h : P w.current w) :
    Decides c strict Lowering.current w [] P :=
  of_never (.bind (.get (.pure trivial))) (yields_current h)

theorem continueIn {b : BlockId} {P : PUnit → Walk → Prop} (h : P ⟨⟩ { w with current := b }) :
    Decides c strict (Lowering.continueIn b) w [] P :=
  of_never (.modify trivial) (yields_continueIn h)

end Decides

/-! ## Expressions -/

/-- A value is held by an instruction. -/
def Held (w : Walk) (v : Value) : Prop :=
  ∃ i, w.builder.inst? v.id = some i

theorem held_of_view {w : Walk} {v : Value} {i : Instruction}
    (h : w.builder.view.insts v.id = some i) : Held w v := by
  obtain ⟨i₀, hi₀, -⟩ := inst?_of_view h
  exact ⟨i₀, hi₀⟩

section

variable {F : BlockId} {w : Walk} {c : Computation} {strict : Bool}

theorem Ready.current_ne (h : Ready F w) : w.current ≠ entryBlock :=
  Int.ne_of_gt h.entry_lt

theorem Computes.tabled {w' : Walk} {ms : List Moment} (h : Computes F w w' ms)
    (ht : Tabled c w.builder) : Tabled c w'.builder :=
  ht.of_memory (memory_of_frame h.works.frame)

theorem decides_emitHere (h : Ready F w) (op : Opcode) {x y : Value} (hconst : op ≠ .const)
    (hphi : op ≠ .phi) (hempty : op ≠ .empty) (hload : op ≠ .load)
    (hx : w.builder.view.BoundedSource x.src) (hy : w.builder.view.BoundedSource y.src) :
    Decides c strict (emitHere op x y) w [] fun v w' => Computes F w w' [] ∧
      w'.builder.view.BoundedSource v.src ∧ Held w' v ∧
        (op.isNumbered = false → ∃ i, w'.builder.view.insts v.id = some i ∧ i.op = op) := by
  have hheld : Yields (emitHere op x y) w fun v w' => Held w' v := by
    refine (yields_emitHere op hphi).imp ?_
    rintro v w' ⟨s, rfl, ⟨hnum, -, hv⟩ | ⟨hc, -⟩ | ⟨hnum, hv⟩⟩
    · obtain ⟨i, hi⟩ : ∃ i, (w.builder.numberAtEnd w.current op x y {}).2.view.insts
          (w.builder.numberAtEnd w.current op x y {}).1.id = some i :=
          h.sound.laid.number_holds h.isSome_current hnum
      obtain ⟨rfl, rfl⟩ := Prod.mk.inj hv
      exact held_of_view hi
    · exact absurd hc hconst
    · obtain ⟨-, -, i, hi, -⟩ := h.sound.laid.emitEffect h.newest op hnum hphi hempty hx hy
      obtain ⟨rfl, rfl⟩ := Prod.mk.inj hv
      exact held_of_view hi
  have hnever : Decides c strict (emitHere op x y) w [] fun _ _ => True :=
    .bind (.current (.last (.callBuilder (never_emit h.isSome_current hconst x y)
      (.of_ok fun _ _ _ => .pure trivial))))
  refine (hnever.and ((computes_emitHere h op hphi hempty hload hx hy).and hheld)).imp ?_
  rintro v w' ⟨-, ⟨hc, hb, hop⟩, hv⟩
  exact ⟨hc, hb, hv, hop⟩

/-- Recording what a version was computed from leaves every version as it is and every instruction
there. -/
theorem depend_keeps (s : State) (v : VersionId) : (s.depend v).versions = s.versions ∧
    ∀ id, (s.inst? id).isSome → ((s.depend v).inst? id).isSome := by
  unfold State.depend
  split
  · exact ⟨rfl, fun _ hi => hi⟩
  · rename_i ver hver
    clear hver
    generalize ver.history ++ [ver.inst] = ids
    induction ids generalizing s with
    | nil => exact ⟨rfl, fun _ hi => hi⟩
    | cons id ids ih =>
      obtain ⟨hversions, hinsts⟩ := ih (s.modifyInst id (·.addDep ver.ref))
      refine ⟨hversions.trans (versions_modifyInst ..), fun id' hi => hinsts id' ?_⟩
      rw [inst?_modifyInst]
      split
      · rename_i he
        simpa [he] using hi
      · exact hi

/-- The version 0 of a variable stands for an instruction. -/
theorem held_implicitZero {floor b : BlockId} {s : State} (h : Laid floor s) (name : String)
    (cause : Option ZeroCause) : ∃ i, (s.implicitZero b name cause).2.inst?
      ((s.implicitZero b name cause).2.readVersion b name (s.implicitZero b name cause).1).id =
      some i := by
  obtain ⟨-, i, hi, -⟩ := h.isConst_const 0
  obtain ⟨i₀, hi₀, -⟩ := inst?_of_view hi
  unfold State.implicitZero
  generalize s.const 0 = r at hi₀
  obtain ⟨z, t⟩ := r
  dsimp only at hi₀ ⊢
  let ver : Version := { var := name, number := 0, inst := z.id, block := startBlock, src := z.src }
  have hver : ((t.addVersion ver (t.endOf startBlock)).2.depend
    t.versions.size).versions[t.versions.size]? = some ver := by
    rw [(depend_keeps _ _).1, versions_addVersion, if_pos rfl]
  have hinst : ∃ i, ((t.addVersion ver (t.endOf startBlock)).2.depend t.versions.size).inst?
    z.id = some i := by
    refine Option.isSome_iff_exists.mp ((depend_keeps _ _).2 _ ?_)
    rw [inst?_addVersion, hi₀]
    rfl
  have hread : ∀ u : State, u.versions[t.versions.size]? = some ver → (∃ i, u.inst? z.id = some i) →
      ∃ i, u.inst? (u.readVersion b name t.versions.size).id = some i := by
    intro u hv hi
    rw [State.readVersion, hv]
    exact hi
  cases cause with
  | none => exact hread _ hver hinst
  | some why => exact hread _ hver hinst

/-- The value of a variable at the end of a block is held by an instruction. -/
theorem held_readAtEnd (h : Ready F w) (name : String) (cause : Option ZeroCause) :
    ∃ i, (w.builder.readAtEnd w.current name cause).2.inst?
      (w.builder.readAtEnd w.current name cause).1.id = some i := by
  unfold State.readAtEnd
  rw [if_neg h.current_ne]
  split
  · rename_i v hv
    obtain ⟨ver, hver, -, -, hlive⟩ := h.sound.laid.timelines.visibleWith_spec hv
    unfold State.readVersion
    rw [hver]
    exact Option.isSome_iff_exists.mp (Option.isSome_of_any hlive)
  · exact held_implicitZero h.sound.laid name cause

theorem decides_checkScalar (ht : Tabled c w.builder) (name : String) (pos : Position) :
    Decides c strict (checkScalar ⟨strict, c.vars.map (·.name)⟩ name pos) w [⟨name, [], pos⟩]
      fun _ w' => w' = w := by
  have hallows : c.Allows strict ⟨name, [], pos⟩ ↔ (∀ a ∈ c.arrays, a.name ≠ name) ∧
      (strict = true → ∃ v ∈ c.vars, v.name = name) := by
    rw [Computation.Allows, if_pos rfl]
  unfold checkScalar
  refine Ends.bind (.get (.guard (fun ha => ?_) fun ha => ?_))
  · obtain ⟨a, ha⟩ := Option.isSome_iff_exists.mp ha
    obtain ⟨d, hd, hname, -⟩ := ht.of_some ha
    exact ⟨_, mem_singleton.mpr rfl, .arrayAsScalar rfl hd hname⟩
  · have hnone := ht.of_none (by simpa using ha)
    split
    · rename_i hdecl
      have hdecl : strict = true ∧ ∀ v ∈ c.vars, v.name ≠ name := by simpa using hdecl
      exact .throw ⟨_, mem_singleton.mpr rfl, .undeclared rfl hdecl.1 hdecl.2⟩
    · rename_i hdecl
      refine .pure ⟨fun d hd => ?_, rfl⟩
      rw [mem_singleton.mp hd, hallows]
      refine ⟨hnone, fun hstrict => ?_⟩
      simpa [hstrict] using hdecl

/-- What is wrong with the indices of an element is wrong with its designator. -/
theorem blames_of_misindexed (ht : Tabled c w.builder) {d : Designator} (hd : d.indices ≠ [])
    {e : Builder.Error} (h : w.builder.Misindexed d.name d.indices.length e) :
    Blames c strict d (.builder e) := by
  rcases h with ⟨hnone, rfl⟩ | ⟨a, ha, hcount, rfl⟩
  · exact .noArray hd (ht.of_none hnone)
  · obtain ⟨a', ha', hname, hdims⟩ := ht.of_some ha
    rw [← hdims] at hcount ⊢
    exact .indexCount hd ha' hname hcount

/-- The sites of an access do not matter for what it decides. -/
theorem decides_access {α : Type} {P : α → Walk → Prop} (ht : Tabled c w.builder)
    {d : Designator} (hd : d.indices ≠ []) {act : Build α} {trail : Builder.Error → List Site}
    (hf : Fails act w.builder (w.builder.Misindexed d.name d.indices.length))
    (hy : Yields act w.builder fun a s => P a { w with builder := s } ∧
      ∃ a, w.builder.array? d.name = some a ∧ d.indices.length = a.dims.length) :
    Decides c strict (callBuilder trail act) w [d] P := by
  refine ends_callBuilder (E := fun e _ => ∃ d' ∈ [d], Blames c strict d' e)
    ((Ends.and hf hy).mono ?_ ?_)
  · exact fun e _ he => ⟨d, mem_singleton.mpr rfl, blames_of_misindexed ht hd he⟩
  · rintro a s ⟨-, hp, info, hinfo, hlen⟩
    refine ⟨fun d' hd' => ?_, hp⟩
    obtain ⟨a', ha', hname, hdims⟩ := ht.of_some hinfo
    rw [mem_singleton.mp hd', Computation.Allows, if_neg hd]
    exact ⟨a', ha', hname, by rw [hdims, hlen]⟩

theorem decides_lowerCall {fn : Builtin} {args : List Expr} {argument : Lower Value}
    {ms : List Moment} (h : Ready F w) (pos : Position) (hfn : ∀ code, fn ≠ .other code)
    (hargs : args.length = fn.arity) (harg : args.length = 1 → Decides c strict argument w
      (Expr.designatorsOf args) fun v w' => Held w' v)
    (hcomp : Yields argument w fun v w' => Computes F w w' ms ∧
      w'.builder.view.BoundedSource v.src) :
    Decides c strict (lowerCall fn pos argument) w (Expr.designatorsOf args)
      fun v w' => Held w' v := by
  have hnone : ∀ V : View, V.BoundedSource ({} : Value).src := boundedSource_absent
  cases fn with
  | inputNum =>
    rw [length_eq_zero_iff.mp hargs, Expr.designatorsOf_nil]
    exact (decides_emitHere h .read (by decide) (by decide) (by decide) (by decide) (hnone _)
      (hnone _)).imp fun v w' hv => hv.2.2.1
  | outputNewLine =>
    rw [length_eq_zero_iff.mp hargs, Expr.designatorsOf_nil]
    exact (decides_emitHere h .writeNL (by decide) (by decide) (by decide) (by decide) (hnone _)
      (hnone _)).imp fun v w' hv => hv.2.2.1
  | outputNum =>
    refine .last (((harg hargs).and hcomp).imp ?_)
    rintro v w₁ ⟨-, hc, hb⟩
    exact (decides_emitHere (hc.ready h) .write (by decide) (by decide) (by decide) (by decide) hb
      (hnone _)).imp fun v w' hv => hv.2.2.1
  | other code => exact absurd rfl (hfn code)

mutual

/-- An expression is lowered just if its designators are used well. -/
theorem decides_lowerExpr (c : Computation) (strict : Bool) : ∀ (e : Expr) {w : Walk},
    e.Regular → Ready F w → Tabled c w.builder → Decides c strict
      (lowerExpr ⟨strict, c.vars.map (·.name)⟩ e) w e.designators fun v w' => Held w' v
  | .num n, w, _, h, _ => by
    rw [lowerExpr, Expr.designators]
    refine .callBuilder (never_step _) (ends_step ?_)
    obtain ⟨-, i, hi, -⟩ := h.sound.laid.isConst_const n
    exact held_of_view hi
  | .element name [] pos, w, _, h, ht => by
    rw [lowerExpr, Expr.designators_scalar]
    refine .last (.within ((decides_checkScalar ht name pos).imp ?_) _)
    rintro _ _ rfl
    refine .last (.current (.callBuilder (never_lookup h.isSome_current h.current_ne name)
      (yields_lookup.imp ?_)))
    rintro v s ⟨-, hv⟩
    rw [show v = _ from congrArg Prod.fst hv, show s = _ from congrArg Prod.snd hv]
    exact held_readAtEnd h name _
  | .element name (e :: es) pos, w, hr, h, ht => by
    rw [lowerExpr, Expr.designators]
    rw [Expr.Regular] at hr
    refine .bind (.within (((decides_lowerIndices c strict (e :: es) hr h ht).and
      (computes_lowerIndices _ (e :: es) h)).imp ?_) _)
    rintro indices w₁ ⟨hlen, hc, hb⟩
    have h₁ := hc.ready h
    have hd : (⟨name, e :: es, pos⟩ : Designator).indices ≠ [] := cons_ne_nil _ _
    have hf := fails_loadElement h₁.isSome_current h₁.current_ne name indices
    rw [hlen] at hf
    have haccess : Decides c strict (Lowering.located pos .elementPosition (Lowering.within .loading
        (callBuilder (accessTrail .loadAccess .loadAddress) (loadElement w₁.current name indices))))
        w₁ [⟨name, e :: es, pos⟩] fun v w' => Held w' v := by
      refine .located (.within (decides_access (hc.tabled ht) hd hf (yields_loadElement.imp ?_)) _)
        _ _
      rintro v s ⟨a, ha, hcount, hv⟩
      refine ⟨?_, a, ha, hlen ▸ hcount⟩
      have haddr := h₁.sound.laid.layout.arrays (mem_of_find?_eq_some ha)
      obtain ⟨hw, -⟩ := h₁.sound.laid.elementAddress h₁.newest haddr hb
      generalize w₁.builder.elementAddress w₁.current a indices = r at hw hv
      obtain ⟨i, hi⟩ : ∃ i, (r.2.numberAtEnd w₁.current .load r.1 {} ⟨name, a.epoch⟩).2.view.insts
          (r.2.numberAtEnd w₁.current .load r.1 {} ⟨name, a.epoch⟩).1.id = some i :=
        hw.laid.number_holds (hw.isSome h₁.isSome_current) rfl
      rw [show v = _ from congrArg Prod.fst hv, show s = _ from congrArg Prod.snd hv]
      exact held_of_view hi
    exact .first (.current haccess)
  | .binary op left right, w, hreg, h, ht => by
    rw [lowerExpr, Expr.designators]
    rw [Expr.Regular] at hreg
    obtain ⟨hop, hl, hr⟩ := hreg
    refine .bind (.within (((decides_lowerExpr c strict left hl h ht).and
      (computes_lowerExpr _ left h)).imp ?_) _)
    rintro x w₁ ⟨-, hx, hbx⟩
    have h₁ := hx.ready h
    refine .last (.within (((decides_lowerExpr c strict right hr h₁ (hx.tabled ht)).and
      (computes_lowerExpr _ right h₁)).imp ?_) _)
    rintro y w₂ ⟨-, hy, hby⟩
    obtain ⟨hphi, hempty, hload⟩ := operation_ne op
    have hconst : operation op ≠ .const := by
      cases op with
      | other code => exact absurd rfl (hop code)
      | _ => intro he; cases he
    exact .within ((decides_emitHere (hy.ready h₁) _ hconst hphi hempty hload
      (Laid.BoundedSource.mono hy.works hbx) hby).imp fun v w' hv => hv.2.2.1) _
  | .call fn args pos, w, hreg, h, ht => by
    rw [lowerExpr, Expr.designators]
    rw [Expr.Regular] at hreg
    obtain ⟨hfn, hargs, hr⟩ := hreg
    exact .within (decides_lowerCall h pos hfn hargs (decides_lowerArgument c strict args hr h ht)
      (computes_lowerArgument _ args h)) _
  | .hole, w, hr, _, _ => by
    rw [Expr.Regular] at hr
    exact hr.elim

theorem decides_lowerIndices (c : Computation) (strict : Bool) : ∀ (es : List Expr) {w : Walk},
    Expr.AllRegular es → Ready F w → Tabled c w.builder →
    Decides c strict (lowerIndices ⟨strict, c.vars.map (·.name)⟩ es) w (Expr.designatorsOf es)
      fun vs _ => vs.length = es.length
  | [], w, _, _, _ => by
    rw [lowerIndices, Expr.designatorsOf]
    exact .pure rfl
  | e :: es, w, hreg, h, ht => by
    rw [lowerIndices, Expr.designatorsOf]
    rw [Expr.AllRegular] at hreg
    obtain ⟨he, hes⟩ := hreg
    refine .bind (.within (((decides_lowerExpr c strict e he h ht).and
      (computes_lowerExpr _ e h)).imp ?_) _)
    rintro v w₁ ⟨-, hv, -⟩
    refine .last ((decides_lowerIndices c strict es hes (hv.ready h) (hv.tabled ht)).imp
      fun vs w' hvs => ?_)
    exact .pure (by rw [length_cons, length_cons, hvs])

theorem decides_lowerArgument (c : Computation) (strict : Bool) : ∀ (es : List Expr) {w : Walk},
    Expr.AllRegular es → Ready F w → Tabled c w.builder → es.length = 1 →
    Decides c strict (lowerArgument ⟨strict, c.vars.map (·.name)⟩ es) w (Expr.designatorsOf es)
      fun v w' => Held w' v
  | [e], w, hreg, h, ht, _ => by
    rw [lowerArgument, Expr.designatorsOf, Expr.designatorsOf_nil, append_nil]
    rw [Expr.AllRegular] at hreg
    exact .within (decides_lowerExpr c strict e hreg.1 h ht) _

end

/-! ## Conditions and assignments -/

/-- An instruction is a branch. -/
def IsBranch (s : State) (id : InstId) : Prop :=
  ∃ i, s.view.insts id = some i ∧ i.op.isBranch = true

theorem IsBranch.mono {s t : State} {b₀ : BlockId} {id : InstId} (h : IsBranch s id)
    (g : View.Grows b₀ s.view t.view) : IsBranch t id := by
  obtain ⟨i, hi, hop⟩ := h
  obtain ⟨i', hi', hop', -⟩ := g.inst hi
  exact ⟨i', hi', hop' ▸ hop⟩

theorem IsBranch.inst? {s : State} {id : InstId} (h : IsBranch s id) :
    ∃ i, s.inst? id = some i ∧ i.op.isBranch = true := by
  obtain ⟨i, hi, hop⟩ := h
  obtain ⟨i₀, hi₀, -, rfl⟩ := inst?_of_view hi
  exact ⟨i₀, hi₀, hop⟩

theorem decides_lowerRelation (c : Computation) (strict : Bool) (r : Relation) (hr : r.Regular)
    (h : Ready F w) (ht : Tabled c w.builder) :
    Decides c strict (lowerRelation ⟨strict, c.vars.map (·.name)⟩ r) w r.designators
      fun id w' => IsBranch w'.builder id := by
  obtain ⟨hop, hleft, hright⟩ := hr
  refine .bind (.within (((decides_lowerExpr c strict r.left hleft h ht).and
    (computes_lowerExpr _ r.left h)).imp ?_) _)
  rintro x w₁ ⟨-, hx, hbx⟩
  have h₁ := hx.ready h
  refine .last (.within (((decides_lowerExpr c strict r.right hright h₁ (hx.tabled ht)).and
    (computes_lowerExpr _ r.right h₁)).imp ?_) _)
  rintro y w₂ ⟨-, hy, hby⟩
  refine .last ((decides_emitHere (hy.ready h₁) .cmp (by decide) (by decide) (by decide) (by decide)
    (Laid.BoundedSource.mono hy.works hbx) hby).imp ?_)
  rintro v w₃ ⟨hc, hbv, -⟩
  obtain ⟨hphi, hempty, hload⟩ := negated_ne r.op
  have hbranch : negated r.op ≠ .const ∧ (negated r.op).isNumbered = false ∧
    (negated r.op).isBranch = true := by
    cases hrop : r.op with
    | other code => exact absurd hrop (hop code)
    | _ => exact ⟨(by intro he; cases he), rfl, rfl⟩
  refine .last (.within ((decides_emitHere (hc.ready (hy.ready h₁)) _ hbranch.1 hphi
    hempty hload hbv (boundedSource_absent _)).imp ?_) _)
  rintro br w' ⟨-, -, -, hbr⟩
  obtain ⟨i, hi, hiop⟩ := hbr hbranch.2.1
  exact .pure ⟨i, hi, by rw [hiop]; exact hbranch.2.2⟩

theorem decides_lowerAssign (c : Computation) (strict : Bool) (d : Designator) {v : Value}
    (hd : Expr.AllRegular d.indices) (h : CanLower F w) (ht : Tabled c w.builder) (hv : Held w v) :
    Decides c strict (lowerAssign ⟨strict, c.vars.map (·.name)⟩ d v) w
      (Expr.designatorsOf d.indices ++ [d]) fun _ _ => True := by
  obtain ⟨name, indices, pos⟩ := d
  obtain ⟨i, hi⟩ := hv
  unfold lowerAssign
  dsimp only at hd ⊢
  split
  · rw [Expr.designatorsOf_nil, nil_append]
    refine .last (.within ((decides_checkScalar ht name pos).imp ?_) _)
    rintro _ _ rfl
    exact .last
      (.current (.discard (.callBuilder (never_assign h.ready.isSome_current h.ready.current_ne name
      hi) <| .of_ok fun _ _ _ => trivial)))
  · rename_i e es
    refine .bind (.within (((decides_lowerIndices c strict (e :: es) hd h.ready ht).and
      ((computes_lowerIndices _ (e :: es) h.ready).and
      (gives_lowerIndices _ (e :: es) h.canAdd))).imp ?_) _)
    rintro vs w₁ ⟨hlen, ⟨hc, -⟩, he, -⟩
    have h₁ := hc.ready h.ready
    obtain ⟨i', hi', -⟩ := (he.persists h.canAdd).inst hi
    have hf := fails_storeElement h₁.isSome_current h₁.current_ne name vs hi'
    rw [hlen] at hf
    have haccess : Decides c strict (Lowering.located pos .storing (Lowering.within .storing
        (callBuilder (accessTrail .storeAccess .storeAddress) (storeElement w₁.current name vs v))))
        w₁ [⟨name, e :: es, pos⟩] fun _ _ => True := by
      refine .located (.within (decides_access (hc.tabled ht) (d := ⟨name, e :: es, pos⟩)
        (cons_ne_nil _ _) hf (yields_storeElement.imp ?_)) _) _ _
      rintro _ s ⟨a, ha, hcount, -⟩
      exact ⟨trivial, a, ha, hlen ▸ hcount⟩
    exact .first (.current haccess)

/-! ## Constructs -/

/-- The first part of an `if` was opened: `branch` ends the block in front of it, and a block is
made below that. -/
structure Parts (F : BlockId) (c : Computation) (strict : Bool) (kind : JoinKind)
    (cond : Relation) (w w₁ : Walk) (r : BlockId × State) (f : IfFrame) : Prop where
  relation : lowerRelation ⟨strict, c.vars.map (·.name)⟩ cond w = .ok f.branch w₁
  made : r = (w₁.builder.openJoin kind).addBlock
    { kind := .thenPart, dominators := w₁.builder.dominatorsOf w₁.current, parents := [w₁.current] }
  pre : f.pre = w₁.current
  dominators : f.dominators = w₁.builder.dominatorsOf w₁.current
  steady : Steady F w₁
  begins : Begins F kind w₁ r
  branch : IsBranch w₁.builder f.branch
  tabled : Tabled c r.2

theorem decides_openIf (c : Computation) (strict : Bool) (kind : JoinKind) (cond : Relation)
    (hcond : cond.Regular) (h : CanLower F w) (ht : Tabled c w.builder) :
    Decides c strict (openIf ⟨strict, c.vars.map (·.name)⟩ kind cond) w cond.designators fun f w' =>
      ∃ w₁ r, w' = ⟨r.2, r.1⟩ ∧ Parts F c strict kind cond w w₁ r f := by
  refine .last (.within (((decides_lowerRelation c strict cond hcond h.ready ht).and
    (computes_lowerRelation _ cond h.ready).self).imp ?_) _)
  rintro branch w₁ ⟨hbranch, hc, hrel⟩
  obtain ⟨op, -, -, hends⟩ := ends_lowerRelation _ cond h.canAdd _ _ hrel
  have h₁ := hends.steady h.toSteady hc
  obtain ⟨hs, -, hgraph, -⟩ := h₁.ready.sound.openJoin kind
  have hvalid : ((w₁.builder.openJoin kind).view.graph w₁.current).isSome :=
    hgraph ▸ h₁.ready.isSome_current
  have hdoms : w₁.builder.dominatorsOf w₁.current = (w₁.builder.openJoin kind).view.doms
    w₁.current := by
    rw [dominatorsOf_eq, View.doms_of_graph hgraph]
  refine .last (.current (.last (.callBuilder (never_dominators h₁.ready.isSome_current)
    (yields_dominators fun _ _ => .last (.callBuilder (.modify trivial)
    (.modify (.last (.callBuilder (never_newBlock hs.laid hvalid hdoms ?_)
    (yields_newBlock (.last (.continueIn (.pure ?_))))))))))))
  · intro q hq
    rwa [mem_singleton.mp hq]
  · have hb : Begins F kind w₁ ((w₁.builder.openJoin kind).addBlock
        { kind := .thenPart, dominators := w₁.builder.dominatorsOf w₁.current,
          parents := [w₁.current] }) :=
      h₁.begins kind rfl rfl (by intro he; cases he) rfl
    exact ⟨w₁, _, rfl, hrel, rfl, rfl, rfl, h₁, hb, hbranch, (hc.tabled ht).of_memory
      hb.opens.spans.memory⟩

/-- The join of an `if` can be made. -/
theorem decides_closeIf {w₁ : Walk} {kind : JoinKind} {d : BlockDraft} {branch : InstId}
    {slot : Int} {side : Side} {ms : List Moment} (hin : Inside F kind w w₁ ms) (h : Ready F w)
    (hj : Joinable w w₁ d) (hkind : kind ≠ .loop) (hjoin : d.join = .ifThen ∨ d.join = .ifElse)
    (htwo : d.parents.length = 2) (hside : Side.ofIndex? slot = some side)
    (hbranch : IsBranch w₁.builder branch)
    (hslot : slot = 1 ∨ ∃ i, w₁.builder.view.insts branch = some i ∧ i.op = .bra) :
    Decides c strict (closeIf d branch slot) w₁ [] fun _ _ => True := by
  have hat := hin.attaches h hj
  have hsound := hin.ready.sound
  rw [floorAt_open hin.kinds] at hsound
  obtain ⟨-, hg₂, -, hid, -, hvalid, -, hparents₂, hjoin₂, hframe₂⟩ :=
    hsound.addBlock hat fun hl => absurd hl hj.join
  have hkinds : (w₁.builder.addBlock d).2.contexts.map (·.kind) = kind :: kinds w :=
    (congrArg (·.2.2.2) hframe₂ : (w₁.builder.addBlock d).2.contexts.map (·.kind) = _).trans
      hin.kinds
  obtain ⟨c₀, rest, hctx, rfl, -⟩ := map_eq_cons_iff.mp hkinds
  obtain ⟨i, hi, hop⟩ := (hbranch.mono (hg₂ 0)).inst?
  refine .last (.callBuilder (never_newBlock hsound.laid hat.valid hat.doms
    fun q hq => (hat.parents q hq).1)
    (yields_newBlock (.last (.callBuilder (never_deferBranch hi hop hside hvalid)
    (yields_deferBranch.imp ?_)))))
  rintro _ t ⟨i', side', hi', hop', hside', -, rfl⟩
  have htarget := isTarget_of_slot hslot (hg₂ 0) hi' hop' hside'
  have hview₃ := view_defer hi' htarget (w₁.builder.addBlock d).1
  have hctx₃ := contexts_defer (w₁.builder.addBlock d).2 branch side'
    (w₁.builder.addBlock d).1
  refine .last (.callBuilder (never_reconcileIf ?_ ?_ (hctx₃.trans hctx) hkind) <|
    .of_ok fun _ _ _ =>
    .last (.continueIn (.callBuilder (.modify trivial) <| .of_ok fun _ _ _ => trivial)))
  · rw [hview₃, hid, hjoin₂]
    exact hjoin
  · rw [hview₃, hid, hparents₂]
    exact htwo

section

variable {cond : Relation} {ds es : List Designator} {ops : List Opcode}
    {ms ns : Walk → List Moment}

theorem decides_lowerIfThen {thenPart : Lower Unit} (hcond : cond.Regular) (h : CanLower F w)
    (ht : Tabled c w.builder) (hext : Extending thenPart ms)
    (hthen : ∀ {F w}, CanLower F w → Tabled c w.builder → Decides c strict thenPart w ds
      fun _ _ => True) :
    Decides c strict (lowerIfThen ⟨strict, c.vars.map (·.name)⟩ cond thenPart) w
      (cond.designators ++ ds) fun _ _ => True := by
  refine .bind ((decides_openIf c strict .ifThen cond hcond h ht).imp ?_)
  rintro f _ ⟨w₁, r, rfl, hp⟩
  have hb := hp.begins
  refine .last (.within (((hthen hb.canLower hp.tabled).and (hext hb.canLower.ready)).imp ?_) _)
  rintro _ w₂ ⟨-, hpart⟩
  have h₁ := hp.steady.ready
  have hin := hb.opens.inside.extend hpart h₁.newest
  have hj : Joinable w₁ w₂
      { kind := .join, join := .ifThen, dominators := f.dominators,
        parents := [w₂.current, f.pre] } :=
    joinable_ifThen h₁ hb.opens hpart (hp.dominators.trans (dominatorsOf_eq _ _)) (by rw [hp.pre])
      (by intro he; cases he)
  exact .last (.current (decides_closeIf hin h₁ hj (by intro he; cases he) (.inl rfl) rfl rfl
    (hp.branch.mono hin.spans.grows) (.inl rfl)))

/-- The second part of an `if` can be entered. -/
theorem decides_openElse {w₁ w₂ : Walk} {f : IfFrame} {kms : List Moment}
    (hin : Inside F .ifElse w₁ w₂ kms) (h : Ready F w₁) (hpre : f.pre = w₁.current)
    (hdoms : f.dominators = w₁.builder.dominatorsOf w₁.current)
    (hbranch : IsBranch w₁.builder f.branch) : Decides c strict (openElse f) w₂ []
    fun _ _ => True := by
  have hnone : w₂.builder.view.BoundedSource ({} : Value).src := boundedSource_absent _
  refine .last (.current (.last ((decides_emitHere hin.ready .bra (by decide) (by decide)
    (by decide) (by decide) hnone hnone).imp ?_)))
  rintro bra w₃ ⟨hc, -⟩
  have hin₃ : Inside F .ifElse w₁ w₃ kms :=
    append_nil kms ▸ hin.extend (hc.extends hin.ready) h.newest
  obtain ⟨hfront, hsame⟩ := hin₃.front h
  have hdoms₃ : f.dominators = w₃.builder.view.doms w₁.current := by
    rw [hdoms, dominatorsOf_eq, hsame]
  let d : BlockDraft := { kind := .elsePart, dominators := f.dominators, parents := [f.pre] }
  obtain ⟨hr₄, hg₄, -⟩ := ready_addBlock (r := w₃.builder.addBlock d) hin₃.ready
    hin₃.kinds hfront hdoms₃ (congrArg ([·]) hpre) (by intro he; cases he) rfl
  obtain ⟨i, hi, hop⟩ :=
    (hbranch.mono (hin₃.spans.grows.trans (hg₄ w₁.current) (Int.le_refl _))).inst?
  refine .last (.callBuilder (never_newBlock hin₃.ready.sound.laid hfront hdoms₃ fun q hq => ?_)
    (yields_newBlock (.last (.callBuilder (never_deferBranch hi hop rfl hr₄.isSome_current) <|
    .of_ok fun _ _ _ =>
      .last (.continueIn (.pure trivial))))))
  rwa [mem_singleton.mp hq, hpre]

theorem decides_lowerIfElse {thenPart elsePart : Lower Unit} (hcond : cond.Regular)
    (h : CanLower F w) (ht : Tabled c w.builder) (hext : Extending thenPart ms)
    (hext' : Extending elsePart ns) (honward : Advancing thenPart ops)
    (hthen : ∀ {F w}, CanLower F w → Tabled c w.builder → Decides c strict thenPart w ds
      fun _ _ => True)
    (helse : ∀ {F w}, CanLower F w → Tabled c w.builder → Decides c strict elsePart w es
      fun _ _ => True) :
    Decides c strict (lowerIfElse ⟨strict, c.vars.map (·.name)⟩ cond thenPart elsePart) w
      (cond.designators ++ (ds ++ es)) fun _ _ => True := by
  refine .bind ((decides_openIf c strict .ifElse cond hcond h ht).imp ?_)
  rintro f _ ⟨w₁, r, rfl, hp⟩
  have hb := hp.begins
  refine .bind (.within (((hthen hb.canLower hp.tabled).and (hext hb.canLower.ready).self).imp ?_)
    _)
  rintro _ w₂ ⟨-, hpart, heq⟩
  have h₁ := hp.steady.ready
  have hin := hb.opens.inside.extend hpart h₁.newest
  have hdoms := hp.dominators.trans (dominatorsOf_eq _ _)
  have htake : Yields (openElse f) w₂ fun g w' => ∃ bra w₃ r', emitHere .bra {} {} w₂ = .ok bra w₃ ∧
      r' = w₃.builder.addBlock { kind := .elsePart, dominators := f.dominators,
                                 parents := [f.pre] } ∧
      (∃ i, r'.2.inst? f.branch = some i ∧ i.op.isBranch = true) ∧
      w' = ⟨r'.2.defer f.branch .y r'.1, r'.1⟩ :=
    yields_openElse <| .of_ok fun bra w₃ hbra r' hr' i hi hop => ⟨bra, w₃, r', hbra, hr',
      ⟨i, hi, hop⟩, rfl⟩
  refine .first (((decides_openElse hin h₁ hp.pre hp.dominators hp.branch).and
    ((inside_openElse hin h₁ hp.pre hdoms).and htake)).imp ?_)
  rintro g _ ⟨-, ⟨hin', hg, hcur, hbottom, hdoms', htop, hbra⟩, bra, w₃, r', hemit, hr',
    ⟨i, hi, hop⟩, rfl⟩
  have hfirst := firstPart _ cond .ifElse h hext honward hp.relation hp.made heq
  rw [hp.dominators, hp.pre] at hr'
  have hv := (hfirst.turns hemit hr' hi hop hin'.ready).canLower
  have htab : Tabled c (r'.2.defer f.branch .y r'.1) :=
    hp.tabled.of_memory (hin'.spans.memory.trans hb.opens.spans.memory.symm)
  refine .last (.within (((helse hv htab).and (hext' hv.ready)).imp ?_) _)
  rintro _ w₄ ⟨-, hpart'⟩
  have hj : Joinable w₁ w₄ { kind := .join, join := .ifElse, dominators := g.dominators,
                             parents := [g.thenBottom, w₄.current] } :=
    joinable_ifElse h₁ hb.opens hpart hin' hg hcur htop hpart' (hdoms'.trans hdoms)
      (by rw [hbottom])
      (by intro he; cases he)
  obtain ⟨j, hj₀, hjop₀⟩ := hbra
  obtain ⟨j', hj₁, hjop, -⟩ := hpart'.spans.grows.inst hj₀
  have hjump : j'.op = .bra := hjop.trans hjop₀
  exact .last (.current (decides_closeIf (hin'.extend hpart' h₁.newest) h₁ hj
    (by intro he; cases he) (.inr rfl) rfl rfl
    ⟨j', hj₁, by rw [hjump]; rfl⟩ (.inr ⟨j', hj₁, hjump⟩)))

theorem decides_openHeader (h : Steady F w) : Decides c strict openHeader w [] fun header w' => ∃ r,
    w' = ⟨r.2, r.1⟩ ∧ header = r.1 ∧ Begins F .loop w r := by
  obtain ⟨hs, -, hgraph, -⟩ := h.ready.sound.openJoin .loop
  have hvalid : ((w.builder.openJoin .loop).view.graph w.current).isSome :=
    hgraph ▸ h.ready.isSome_current
  have hdoms : w.builder.dominatorsOf w.current = (w.builder.openJoin .loop).view.doms
    w.current := by
    rw [dominatorsOf_eq, View.doms_of_graph hgraph]
  have hb : Begins F .loop w ((w.builder.openJoin .loop).addBlock
      { kind := .loopHeader, join := .loop, dominators := w.builder.dominatorsOf w.current,
        parents := [w.current] }) :=
    h.begins .loop rfl rfl (fun _ => rfl) rfl
  refine .last (.current (.last (.callBuilder (never_dominators h.ready.isSome_current)
    (yields_dominators fun _ _ =>
    .last (.callBuilder (.modify trivial)
      (.modify (.last (.callBuilder (never_newBlock hs.laid hvalid hdoms ?_)
      (yields_newBlock (.last (.continueIn (.pure ⟨_, rfl, rfl, hb⟩))))))))))))
  intro q hq
  rwa [mem_singleton.mp hq]

/-- The body of a loop can be entered, and statements can be lowered there. -/
theorem decides_openLoop (c : Computation) (strict : Bool) (hcond : cond.Regular) (h : CanLower F w)
    (ht : Tabled c w.builder) :
    Decides c strict (openLoop ⟨strict, c.vars.map (·.name)⟩ cond) w cond.designators fun f w' =>
      CanLower (floorAt F w.builder) w' ∧ IsBranch w'.builder f.branch := by
  refine .first ((decides_openHeader h.toSteady).imp ?_)
  rintro header _ ⟨r, rfl, rfl, hb⟩
  have hv := hb.canLower
  have htab : Tabled c r.2 := ht.of_memory hb.opens.spans.memory
  refine .last (.within (((decides_lowerRelation c strict cond hcond hv.ready htab).and
    (computes_lowerRelation _ cond hv.ready).self).imp ?_) _)
  rintro branch w₁ ⟨hbranch, hc, hrel⟩
  obtain ⟨op, -, -, hends⟩ := ends_lowerRelation _ cond hv.canAdd _ _ hrel
  have hst₁ := hends.steady hv.toSteady hc
  have hcur₁ : w₁.current = r.1 := hc.current
  have hvalid : (w₁.builder.view.graph r.1).isSome := hcur₁ ▸ hst₁.ready.isSome_current
  have hkinds : kinds w₁ = .loop :: kinds w := (congrArg (·.2.2.2) hc.works.frame).trans
    hb.opens.kinds
  let d : BlockDraft :=
    { kind := .loopBody, dominators := w₁.builder.dominatorsOf r.1, parents := [r.1] }
  have hbuilt : Built w₁.builder [r.1] (w₁.builder.addBlock d) :=
    hst₁.ready.sound.laid.built_below rfl hvalid rfl
  have hmade : Steps 0 (fun _ => True) [] w₁.builder (w₁.builder.addBlock d).2 := hbuilt.steps
  obtain ⟨hready, hg, -⟩ := ready_addBlock (r := w₁.builder.addBlock d) hst₁.ready hkinds hvalid
    (dominatorsOf_eq _ _) rfl (by intro he; cases he) rfl
  have hgate : (w₁.builder.addBlock d).2.view.children entryBlock = w₁.builder.view.children
    entryBlock := by
    rw [hbuilt.children, if_neg fun hmem => Int.ne_of_lt hv.ready.entry_lt (mem_singleton.mp hmem)]
  have hpoised : CanLower (floorAt F w.builder) ⟨(w₁.builder.addBlock d).2,
    (w₁.builder.addBlock d).1⟩ :=
    ⟨hst₁.go hmade hready hgate, hbuilt.opened, hbuilt.childless⟩
  refine .last (.first (.callBuilder (never_dominators hvalid)
    (yields_dominators fun _ _ => .first
    (.callBuilder (never_newBlock hst₁.ready.sound.laid hvalid (dominatorsOf_eq _ _) ?_)
    (yields_newBlock (.continueIn (.pure ⟨hpoised, hbranch.mono (hg 0)⟩)))))))
  intro q hq
  rwa [mem_singleton.mp hq]

/-- The body of a loop can be ended. -/
theorem decides_endBody {f : LoopFrame} (h : Ready F w)
    (hheader : (w.builder.view.graph f.header).isSome) (hbranch : IsBranch w.builder f.branch) :
    Decides c strict (endBody f) w [] fun _ w' => IsBranch w'.builder f.branch := by
  have hnone : w.builder.view.BoundedSource ({} : Value).src := boundedSource_absent _
  refine .last
    (.current (.last ((decides_emitHere h .bra (by decide) (by decide) (by decide) (by decide)
    hnone hnone).imp ?_)))
  rintro bra w₁ ⟨hc, -, -, hbra⟩
  obtain ⟨i, hi, hop⟩ := hbra rfl
  obtain ⟨i₀, hi₀, -, rfl⟩ := inst?_of_view hi
  have hop : i₀.op = .bra := hop
  have hvalid : (w₁.builder.view.graph f.header).isSome := hc.works.graph ▸ hheader
  have htarget : i₀.isTarget .x = true := by simp [Instruction.isTarget, hop, Opcode.isBranch]
  have hview := view_defer hi₀ htarget f.header
  refine .last (.callBuilder (never_deferBranch hi₀ (by rw [hop]; rfl) rfl hvalid)
    (yields_deferBranch.imp ?_))
  rintro _ t ⟨_, side, -, -, hside, -, rfl⟩
  cases hside
  have hgrows : View.Grows 0 w.builder.view (w₁.builder.defer bra.id .x f.header).view :=
    hview ▸ hc.works.grows 0
  exact .pure (hbranch.mono hgrows)

/-- A loop can be closed and repaired. -/
theorem never_reconcileLoop {w₁ : Walk} {f : LoopFrame} {kms : List Moment}
    (hb : AtBottom F w w₁ f.header kms) (hbranch : IsBranch w₁.builder f.branch) :
    Never (reconcileLoop f.header w₁.current f.branch) w₁.builder := by
  obtain ⟨h, hin, hf, -⟩ := id hb
  have hne : w₁.current ≠ w.current := by
    have := hin.current
    have := h.newest
    lia
  obtain ⟨c₀, rest, hctx, hkind, -⟩ := map_eq_cons_iff.mp hin.kinds
  refine .before (never_mergeLoop hf.join hf.parents hne hin.ready.isSome_current hctx hkind)
    (yields_mergeLoop.imp ?_)
  rintro _ s ⟨-, c', rest', -, -, -, -, rfl⟩
  obtain ⟨hs₂, hvalid₂, hspan₂, -, hworks⟩ := hb.linkBack rest' rfl
  have hg₂ := (hspan₂ 0 w₁.current (hf.eq ▸ Int.natCast_nonneg _) (Int.le_refl _)).grows
  have hrep := hworks c'.touched
  have hs₃ := hs₂.works hrep
  have hvalid₃ := hrep.isSome hvalid₂
  refine .bind (.modify ?_)
  show Never (exitLoop f.header f.branch) ((State.reconcileAll _ f.header c'.touched).repairLoop
    f.header)
  generalize (State.reconcileAll _ f.header c'.touched).repairLoop f.header = u
    at hrep hs₃ hvalid₃ ⊢
  obtain ⟨-, hg₄, -⟩ := hs₃.addBlock
    (d := { kind := .exit, dominators := u.dominatorsOf f.header, parents := [f.header] })
    (.below hvalid₃ (dominatorsOf_eq _ _) rfl) (by intro he; cases he)
  obtain ⟨i, hi, hop⟩ := ((IsBranch.mono hbranch hg₂).mono (hrep.grows 0) |>.mono (hg₄ 0)).inst?
  exact never_exitLoop hs₃ hvalid₃ hi hop

theorem decides_closeLoop {w₁ : Walk} {f : LoopFrame} {kms : List Moment}
    (hb : AtBottom F w w₁ f.header kms) (hbranch : IsBranch w₁.builder f.branch) :
    Decides c strict (closeLoop f w₁.current) w₁ [] fun _ _ => True :=
  .last (.callBuilder (never_reconcileLoop hb hbranch)
    (.of_ok fun _ _ _ => .last (.continueIn (.callBuilder (.modify trivial) <|
    .of_ok fun _ _ _ => trivial))))

theorem decides_lowerLoop {body : Lower Unit} (hcond : cond.Regular) (h : CanLower F w)
    (ht : Tabled c w.builder) (hext : Extending body ms)
    (hbody : ∀ {F w}, CanLower F w → Tabled c w.builder → Decides c strict body w ds
      fun _ _ => True) :
    Decides c strict (lowerLoop ⟨strict, c.vars.map (·.name)⟩ cond body) w (cond.designators ++ ds)
      fun _ _ => True := by
  refine .bind (((decides_openLoop c strict hcond h ht).and (inside_openLoop _ cond h.ready)).imp
    ?_)
  rintro f w₁ ⟨⟨hv, hbranch⟩, hin, hf, hlt, htop⟩
  refine .last (.within (((hbody hv (ht.of_memory hin.spans.memory)).and (hext hv.ready)).imp ?_) _)
  rintro _ w₂ ⟨-, hpart⟩
  have hlt₁ : f.header < (w₁.builder.view.size : BlockId) := by
    have := hv.ready.newest
    lia
  have hvalid : (w₁.builder.view.graph f.header).isSome := by
    rw [hv.ready.sound.laid.layout.graph.valid]
    exact ⟨hf.eq ▸ Int.natCast_nonneg _, hlt₁⟩
  refine .last (((decides_endBody hpart.ready (hpart.spans.grows.isSome hvalid)
    (hbranch.mono hpart.spans.grows)).and (atBottom_endBody h.ready hin hf hlt htop hpart)).imp ?_)
  rintro bottom w₃ ⟨hbranch₃, rfl, hb⟩
  exact decides_closeLoop hb hbranch₃

end

/-! ## Statements and programs -/

mutual

/-- A statement is lowered just if its designators are used well. -/
theorem decides_lowerStmt (c : Computation) (strict : Bool) :
    ∀ (st : Stmt) {F : BlockId} {w : Walk}, st.Regular → CanLower F w → Tabled c w.builder →
    Decides c strict (lowerStmt ⟨strict, c.vars.map (·.name)⟩ st) w st.designators fun _ _ => True
  | .assign target value pos, F, w, hr, h, ht => by
    rw [lowerStmt, Stmt.designators]
    rw [Stmt.Regular] at hr
    refine .bind (.within (((decides_lowerExpr c strict value hr.2 h.ready ht).and
      ((computes_lowerExpr _ value h.ready).and (gives_lowerExpr _ value h.canAdd))).imp ?_) _)
    rintro v w₁ ⟨hv, ⟨hc, -⟩, he, -⟩
    have h₁ := (he.onward h hc).canLower h (hc.extends h.ready)
    exact .within (decides_lowerAssign c strict target hr.1 h₁ (hc.tabled ht) hv) _
  | .call fn args pos, F, w, hr, h, ht => by
    rw [lowerStmt, Stmt.designators]
    rw [Stmt.Regular] at hr
    obtain ⟨hfn, hargs, hr⟩ := hr
    exact .discard (.within ((decides_lowerCall h.ready pos hfn hargs
      (decides_lowerArgument c strict args hr h.ready ht)
      (computes_lowerArgument _ args h.ready)).imp fun _ _ _ => trivial) _)
  | .ifThen cond thenPart pos, F, w, hr, h, ht => by
    rw [lowerStmt, Stmt.designators]
    rw [Stmt.Regular] at hr
    exact .within (decides_lowerIfThen hr.1 h ht (extends_lowerStmts _ thenPart)
      fun h ht => decides_lowerStmts c strict thenPart hr.2 h ht) _
  | .ifElse cond thenPart elsePart pos, F, w, hr, h, ht => by
    rw [lowerStmt, Stmt.designators]
    rw [Stmt.Regular] at hr
    exact .within (decides_lowerIfElse hr.1 h ht (extends_lowerStmts _ thenPart)
      (extends_lowerStmts _ elsePart) (onward_lowerStmts _ thenPart)
      (fun h ht => decides_lowerStmts c strict thenPart hr.2.1 h ht) fun h ht => decides_lowerStmts
      c strict elsePart hr.2.2 h ht) _
  | .loop cond body pos, F, w, hr, h, ht => by
    rw [lowerStmt, Stmt.designators]
    rw [Stmt.Regular] at hr
    exact .within (decides_lowerLoop hr.1 h ht (extends_lowerStmts _ body)
      fun h ht => decides_lowerStmts c strict body hr.2 h ht) _
  | .hole, F, w, hr, _, _ => by
    rw [Stmt.Regular] at hr
    exact hr.elim

theorem decides_lowerStmts (c : Computation) (strict : Bool) :
    ∀ (ss : List Stmt) {F : BlockId} {w : Walk}, Stmt.AllRegular ss → CanLower F w →
      Tabled c w.builder →
    Decides c strict (lowerStmts ⟨strict, c.vars.map (·.name)⟩ ss) w (Stmt.designatorsOf ss)
      fun _ _ => True
  | [], F, w, _, _, _ => by
    rw [lowerStmts, Stmt.designatorsOf]
    exact .pure trivial
  | st :: ss, F, w, hr, h, ht => by
    rw [lowerStmts, Stmt.designatorsOf]
    rw [Stmt.AllRegular] at hr
    refine .bind (.within (((decides_lowerStmt c strict st hr.1 h ht).and
      ((extends_lowerStmt _ st h.ready).and (onward_lowerStmt _ st h))).imp ?_) _)
    rintro _ w₁ ⟨-, hext, hward⟩
    exact decides_lowerStmts c strict ss hr.2 (hward.canLower h hext)
      (ht.of_memory hext.spans.memory)

end

/-- Arrays can be declared, and are then known. -/
theorem decides_declareArrays {as : List ArrayDecl}
    (hdims : ∀ a ∈ as, a.dims ≠ [] ∧ ∀ d ∈ a.dims, 0 < d) (hnames : (as.map (·.name)).Nodup)
    (hnew : ∀ a ∈ as, w.builder.array? a.name = none) :
    Decides c strict (declareArrays as) w [] fun _ w' =>
      w'.builder.arrays.map (fun a => (a.name, a.dims)) =
        w.builder.arrays.map (fun a => (a.name, a.dims)) ++ as.map fun a => (a.name, a.dims) := by
  induction as generalizing w with
  | nil => exact .pure (append_nil _).symm
  | cons a as ih =>
    obtain ⟨⟨hne, hpos⟩, hdims⟩ := forall_mem_cons.mp hdims
    obtain ⟨hnot, hnames⟩ := nodup_cons.mp hnames
    obtain ⟨hfirst, hnew⟩ := forall_mem_cons.mp hnew
    refine .first (.located (.discard (.callBuilder (never_declareArray hne hpos hfirst)
      (yields_declareArray.imp ?_))) _ _)
    rintro info s ⟨-, -, -, hs⟩
    have harrays : s.arrays = w.builder.arrays ++ [info] ∧ info.name = a.name ∧
      info.dims = a.dims := by
      rw [show info = _ from congrArg Prod.fst hs, show s = _ from congrArg Prod.snd hs]
      exact ⟨arrays_addArray .., rfl, rfl⟩
    obtain ⟨harrays, hname, hinfo⟩ := harrays
    refine (ih (w := { w with builder := s }) hdims hnames fun b hb => ?_).imp ?_
    · have hold := find?_eq_none.mp (hnew b hb)
      refine find?_eq_none.mpr fun x hx => ?_
      rw [harrays] at hx
      rcases mem_append.mp hx with hx | hx
      · exact hold x hx
      · rw [mem_singleton.mp hx, hname]
        intro heq
        exact hnot (mem_map.mpr ⟨b, hb, (by simpa using heq : a.name = b.name).symm⟩)
    · rintro _ w' hw'
      rw [hw', show ({ w with builder := s } : Walk).builder.arrays = _ from harrays,
        map_append, map_cons, hname, hinfo, append_assoc]
      rfl

theorem decides_endProgram (h : Ready F w) (hk : kinds w = []) :
    Decides c strict endProgram w [] fun _ _ => True := by
  have hnone : w.builder.view.BoundedSource ({} : Value).src := boundedSource_absent _
  refine .last (.discard ((decides_emitHere h .halt (by decide) (by decide) (by decide) (by decide)
    hnone hnone).imp ?_))
  rintro v w₁ ⟨hc, -⟩
  have hkinds : kinds w₁ = [] := (congrArg (·.2.2.2) hc.works.frame).trans hk
  exact .callBuilder (never_finish (map_eq_nil_iff.mp hkinds)) <| .of_ok fun _ _ _ => trivial

/-- A computation that is read is lowered just if its designators are used well, and otherwise the
report blames one that is not. -/
theorem decides_lower {c : Computation} (h : c.Regular) (settings : Settings) :
    (∀ p, lower settings c = .ok p → c.WellUsed settings.strict) ∧
    ∀ r, lower settings c = .error r → ∃ d ∈ Stmt.designatorsOf c.body, Blames c settings.strict
      d r.fault := by
  have harrays : Decides c settings.strict (declareArrays c.arrays) { builder := .new settings } []
    _ :=
    decides_declareArrays h.dims h.names fun _ _ => rfl
  constructor
  · intro p hp
    obtain ⟨w₁, w₂, w₃, e, h₁, h₂, -⟩ := lower_ok hp
    obtain ⟨-, ht⟩ := harrays.ok _ _ h₁
    have hp₁ := (canLower_declareArrays c.arrays (canLower_new settings 0) rfl _ _ h₁).1
    exact ((decides_lowerStmts c settings.strict c.body h.body hp₁ ht).ok _ _ h₂).1
  · intro r hr
    unfold lower run at hr
    split at hr
    · rename_i r' w₁ h₁
      obtain ⟨d, hd, -⟩ := harrays.error _ _ h₁
      cases hd
    · rename_i w₁ h₁
      obtain ⟨-, ht⟩ := harrays.ok _ _ h₁
      obtain ⟨hp₁, hward⟩ := canLower_declareArrays c.arrays (canLower_new settings 0) rfl _ _ h₁
      have hk₁ := (ready_declareArrays c.arrays (ready_new settings 0) rfl _ _ h₁).2
      have hbody := (decides_lowerStmts c settings.strict c.body h.body hp₁ ht).within Site.program
      dsimp only at hr
      split at hr
      · rename_i r' w₂ h₂
        cases hr
        exact hbody.error _ _ h₂
      · rename_i w₂ h₂
        have hext := yields_within (extends_lowerStmts _ c.body hp₁.ready) Site.program _ _ h₂
        split at hr
        · rename_i r' w₃ h₃
          have hend : Decides c settings.strict endProgram w₂ [] _ :=
            decides_endProgram hext.ready (hext.kinds.trans hk₁)
          obtain ⟨d, hd, -⟩ := hend.error _ _ h₃
          cases hd
        · cases hr

end

theorem Blames.kind {c : Computation} {strict : Bool} {d : Designator} {fault : Fault}
    (h : Blames c strict d fault) : fault.kind = .invalidArgument ∨ fault.kind = .notFound := by
  cases h with
  | noArray => exact .inr rfl
  | indexCount => exact .inl rfl
  | arrayAsScalar => exact .inl rfl
  | undeclared => exact .inr rfl

/-- A text that can be read is lowered just if every designator in it is used well. Otherwise the
report blames one that is not, and its fault is an invalid argument or something that is not found.
What is lowered where variables have to be declared is the same program where they have not. -/
theorem accepts_iff_wellUsed {cs : List Char} {c : Computation} (h : parse cs = .ok c)
    (settings : Settings) :
    ((∃ p, lower settings c = .ok p) ↔ c.WellUsed settings.strict) ∧
    (∀ r, lower settings c = .error r →
      (∃ d ∈ Stmt.designatorsOf c.body, ¬ c.Allows settings.strict d ∧
        Blames c settings.strict d r.fault) ∧ (r.kind = .invalidArgument ∨ r.kind = .notFound)) ∧
    ∀ p, lower settings c = .ok p → lower { settings with strict := false } c = .ok p := by
  have hregular := regular_of_parse h
  obtain ⟨hok, herror⟩ := decides_lower hregular settings
  refine ⟨⟨fun ⟨p, hp⟩ => hok p hp, fun hused => ?_⟩, fun r hr => ?_, fun p hp => lower_lenient hp⟩
  · cases hl : lower settings c with
    | ok p => exact ⟨p, rfl⟩
    | error r =>
      obtain ⟨d, hd, hblame⟩ := herror r hl
      exact absurd (hused d hd) (hblame.not_allows hregular.names)
  · obtain ⟨d, hd, hblame⟩ := herror r hr
    exact ⟨⟨d, hd, hblame.not_allows hregular.names, hblame⟩, hblame.kind⟩

/-- An assignment to a variable that is not declared is accepted only where it need not be. -/
theorem accepts_undeclared :
    ∃ c, parse "main var x; { while x < x do let y <- x od }.".toList = .ok c ∧
      (∃ p, lower {} c = .ok p) ∧ ∃ r, lower { strict := true } c = .error r ∧
      ∃ d, Blames c true d r.fault := by
  have hused : (parse "main var x; { while x < x do let y <- x od }.".toList).toOption.any (fun c =>
      decide (c.WellUsed false) && !decide (c.WellUsed true)) = true := by cbv
  cases hc : parse "main var x; { while x < x do let y <- x od }.".toList with
  | error e =>
    rw [hc] at hused
    cases hused
  | ok c =>
    rw [hc] at hused
    simp only [Except.toOption, Option.any_some, Bool.and_eq_true, decide_eq_true_eq,
      Bool.not_eq_true', decide_eq_false_iff_not] at hused
    refine ⟨c, rfl, (accepts_iff_wellUsed hc {}).1.mpr hused.1, ?_⟩
    cases hl : lower { strict := true } c with
    | ok p => exact absurd ((accepts_iff_wellUsed hc { strict := true }).1.mp ⟨p, hl⟩) hused.2
    | error r =>
      obtain ⟨⟨d, -, -, hblame⟩, -⟩ := (accepts_iff_wellUsed hc { strict := true }).2.1 r hl
      exact ⟨r, rfl, d, hblame⟩

end SingleAssignment.Lowering
