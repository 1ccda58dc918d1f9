import SingleAssignment.Proofs.Evaluation

/-!
# Reads and assignments

What a run does to variables is a list of accesses in order (`Computation.accesses`). The list goes
as far as the run comes: to its end, or to where it divides by zero, leaves an array or has gone
round a loop too often. A variable is read early if no assignment to it comes before (`ReadEarly`).

A way through statements takes either side of each condition and goes round each loop as often as it
likes (`Passes`); every run keeps to one (`exists_passes_accesses`). Whether a variable is read
early on some way can be told from the tree: `Stmt.AllSpare` asks that statements read it only
behind one that assigns it on all ways (`Stmt.Assigns`), and this is enough
(`Passes.not_readEarly`).
-/

namespace SingleAssignment.Source

open List

/-- What happens to a variable: it is read, or it gets a value. -/
inductive Access where
  | read (name : String)
  | assigned (name : String)
  deriving DecidableEq, Repr, Inhabited

/-- A variable is read, and was not assigned before. -/
def ReadEarly (x : String) (l : List Access) : Prop :=
  ∃ before after, l = before ++ .read x :: after ∧ .assigned x ∉ before

/-! ## Runs -/

mutual

/-- The accesses of an expression as far as it is computed. -/
def exprAccesses (r : World) : Expr → Store → List Access
  | .num _, _ => []
  | .element name [] _, _ => [.read name]
  | .element _ (e :: es) _, σ => indexAccesses r (e :: es) σ
  | .binary _ left right, σ =>
    exprAccesses r left σ ++ (evalExpr r left σ).elim [] fun v => exprAccesses r right v.2
  | .call .outputNum (e :: _) _, σ => exprAccesses r e σ
  | .call _ _ _, _ => []
  | .hole, _ => []

/-- The accesses of indices as far as they are computed. -/
def indexAccesses (r : World) : List Expr → Store → List Access
  | [], _ => []
  | e :: es, σ => exprAccesses r e σ ++ (evalExpr r e σ).elim [] fun v => indexAccesses r es v.2

end

/-- The accesses of a condition as far as it is computed. -/
def conditionAccesses (r : World) (cond : Relation) (σ : Store) : List Access :=
  exprAccesses r cond.left σ ++ (evalExpr r cond.left σ).elim [] fun v => exprAccesses r
    cond.right v.2

/-- The accesses when the target of an assignment gets its value. -/
def assignAccesses (r : World) (d : Designator) (σ : Store) : List Access :=
  match d.indices with
  | [] => [.assigned d.name]
  | e :: es => indexAccesses r (e :: es) σ

/-- The accesses of a call as a statement. -/
def callAccesses (r : World) : Builtin → List Expr → Store → List Access
  | .outputNum, e :: _, σ => exprAccesses r e σ
  | _, _, _ => []

/-- The accesses of a loop that goes round as often as `n` times. -/
def loopAccesses (r : World) (cond : Relation) (body : Store → Option Store)
    (log : Store → List Access) :
    Nat → Store → List Access
  | 0, _ => []
  | n + 1, σ => conditionAccesses r cond σ ++ (evalCondition r cond σ).elim [] fun v =>
      if v.1 then log v.2 ++ (body v.2).elim [] (loopAccesses r cond body log n) else []

mutual

/-- The accesses of a statement as far as it runs. -/
def stmtAccesses (r : World) : Stmt → Store → List Access
  | .assign target value _, σ =>
    exprAccesses r value σ ++ (evalExpr r value σ).elim [] fun v => assignAccesses r target v.2
  | .call fn args _, σ => callAccesses r fn args σ
  | .ifThen cond thenPart _, σ =>
    conditionAccesses r cond σ ++ (evalCondition r cond σ).elim [] fun v =>
      if v.1 then stmtsAccesses r thenPart v.2 else []
  | .ifElse cond thenPart elsePart _, σ =>
    conditionAccesses r cond σ ++ (evalCondition r cond σ).elim [] fun v =>
      if v.1 then stmtsAccesses r thenPart v.2 else stmtsAccesses r elsePart v.2
  | .loop cond body _, σ => loopAccesses r cond (evalStmts r body) (stmtsAccesses r body) r.rounds σ
  | .hole, _ => []

/-- The accesses of statements as far as they run. -/
def stmtsAccesses (r : World) : List Stmt → Store → List Access
  | [], _ => []
  | s :: ss, σ => stmtAccesses r s σ ++ (evalStmt r s σ).elim [] (stmtsAccesses r ss)

end

/-- The accesses of a run on an input, in which a loop goes round as often as `rounds` times. -/
def Computation.accesses (c : Computation) (input : Nat → Int64) (rounds : Nat) : List Access :=
  stmtsAccesses ⟨c.arrays, input, rounds⟩ c.body {}

/-! ## Ways -/

mutual

/-- The variables that an expression reads, in the order of evaluation. -/
def Expr.reads : Expr → List String
  | .num _ => []
  | .element name [] _ => [name]
  | .element _ (e :: es) _ => Expr.allReads (e :: es)
  | .binary _ left right => left.reads ++ right.reads
  | .call .outputNum args _ => Expr.firstReads args
  | .call _ _ _ => []
  | .hole => []

/-- The variables that expressions read. -/
def Expr.allReads : List Expr → List String
  | [] => []
  | e :: es => e.reads ++ Expr.allReads es

/-- The variables that the first of expressions reads. -/
def Expr.firstReads : List Expr → List String
  | [] => []
  | e :: _ => e.reads

end

/-- The variables that a condition reads. -/
def Relation.reads (r : Relation) : List String :=
  r.left.reads ++ r.right.reads

/-- The accesses when the target of an assignment gets its value. -/
def Designator.accesses (d : Designator) : List Access :=
  match d.indices with
  | [] => [.assigned d.name]
  | e :: es => (Expr.allReads (e :: es)).map .read

/-- The accesses on a way through statements, whatever the conditions in them are. -/
inductive Passes : List Stmt → List Access → Prop
  | done : Passes [] []
  | assign {target : Designator} {value : Expr} {pos : Position} {ss : List Stmt} {l : List Access}
      (rest : Passes ss l) :
      Passes (.assign target value pos :: ss) (value.reads.map .read ++ target.accesses ++ l)
  | call {fn : Builtin} {args : List Expr} {pos : Position} {ss : List Stmt} {l : List Access}
      (rest : Passes ss l) :
      Passes (.call fn args pos :: ss) ((Expr.call fn args pos).reads.map .read ++ l)
  | skip {cond : Relation} {thenPart : List Stmt} {pos : Position} {ss : List Stmt}
      {l : List Access} (rest : Passes ss l) : Passes (.ifThen cond thenPart pos :: ss)
      (cond.reads.map .read ++ l)
  | take {cond : Relation} {thenPart : List Stmt} {pos : Position} {ss : List Stmt}
      {l l' : List Access} (part : Passes thenPart l) (rest : Passes ss l') :
      Passes (.ifThen cond thenPart pos :: ss) (cond.reads.map .read ++ l ++ l')
  | first {cond : Relation} {thenPart elsePart : List Stmt} {pos : Position} {ss : List Stmt}
      {l l' : List Access} (part : Passes thenPart l) (rest : Passes ss l') :
      Passes (.ifElse cond thenPart elsePart pos :: ss) (cond.reads.map .read ++ l ++ l')
  | second {cond : Relation} {thenPart elsePart : List Stmt} {pos : Position} {ss : List Stmt}
      {l l' : List Access} (part : Passes elsePart l) (rest : Passes ss l') :
      Passes (.ifElse cond thenPart elsePart pos :: ss) (cond.reads.map .read ++ l ++ l')
  | leave {cond : Relation} {body : List Stmt} {pos : Position} {ss : List Stmt} {l : List Access}
      (rest : Passes ss l) : Passes (.loop cond body pos :: ss) (cond.reads.map .read ++ l)
  | round {cond : Relation} {body : List Stmt} {pos : Position} {ss : List Stmt}
      {l l' : List Access} (part : Passes body l) (rest : Passes (.loop cond body pos :: ss) l') :
      Passes (.loop cond body pos :: ss) (cond.reads.map .read ++ l ++ l')
  | hole {ss : List Stmt} {l : List Access} (rest : Passes ss l) : Passes (.hole :: ss) l

/-! ## Definite assignment -/

mutual

/-- A statement assigns a variable on every way to its end. -/
def Stmt.Assigns (x : String) : Stmt → Prop
  | .assign target _ _ => target.indices = [] ∧ target.name = x
  | .ifElse _ thenPart elsePart _ => Stmt.SomeAssigns x thenPart ∧ Stmt.SomeAssigns x elsePart
  | .call .. | .ifThen .. | .loop .. | .hole => False

/-- One of statements assigns a variable on every way to its end. -/
def Stmt.SomeAssigns (x : String) : List Stmt → Prop
  | [] => False
  | s :: ss => s.Assigns x ∨ Stmt.SomeAssigns x ss

end

mutual

/-- A statement does not read a variable that it has not assigned. -/
def Stmt.Spares (x : String) : Stmt → Prop
  | .assign target value _ => x ∉ value.reads ∧ x ∉ Expr.allReads target.indices
  | .call fn args pos => x ∉ (Expr.call fn args pos).reads
  | .ifThen cond thenPart _ => x ∉ cond.reads ∧ Stmt.AllSpare x thenPart
  | .ifElse cond thenPart elsePart _ =>
    x ∉ cond.reads ∧ Stmt.AllSpare x thenPart ∧ Stmt.AllSpare x elsePart
  | .loop cond body _ => x ∉ cond.reads ∧ Stmt.AllSpare x body
  | .hole => True

/-- Statements do not read a variable that they have not assigned. -/
def Stmt.AllSpare (x : String) : List Stmt → Prop
  | [] => True
  | s :: ss => s.Spares x ∧ (s.Assigns x ∨ Stmt.AllSpare x ss)

end

section

variable {x : String} {l l' : List Access} {names : List String}

theorem readEarly_append : ReadEarly x (l ++ l') ↔ ReadEarly x l ∨ .assigned x ∉ l ∧
    ReadEarly x l' := by
  constructor
  · rintro ⟨before, after, he, hnot⟩
    rcases append_eq_append_iff.mp he with ⟨m, rfl, rfl⟩ | ⟨m, rfl, hm⟩
    · rw [mem_append, not_or] at hnot
      exact .inr ⟨hnot.1, m, after, rfl, hnot.2⟩
    · cases m with
      | nil =>
        rw [nil_append] at hm
        exact .inr ⟨by rwa [append_nil], [], after, hm.symm, not_mem_nil⟩
      | cons a m =>
        obtain ⟨rfl, -⟩ := List.cons.inj hm
        exact .inl ⟨before, m, rfl, hnot⟩
  · rintro (⟨before, after, rfl, hnot⟩ | ⟨hl, before, after, rfl, hnot⟩)
    · exact ⟨before, after ++ l', by simp, hnot⟩
    · exact ⟨l ++ before, after, by simp, fun hm => (mem_append.mp hm).elim hl hnot⟩

theorem ReadEarly.of_prefix (h : ReadEarly x l) (hp : l <+: l') : ReadEarly x l' := by
  obtain ⟨m, rfl⟩ := hp
  exact readEarly_append.mpr (.inl h)

theorem readEarly_reads : ReadEarly x (names.map .read) ↔ x ∈ names := by
  constructor
  · rintro ⟨before, after, he, -⟩
    have hmem : Access.read x ∈ names.map .read := he ▸ mem_append_right _ (mem_cons_self ..)
    obtain ⟨y, hy, hxy⟩ := mem_map.mp hmem
    exact Access.read.inj hxy ▸ hy
  · intro hx
    obtain ⟨before, after, rfl⟩ := append_of_mem hx
    exact ⟨before.map .read, after.map .read, by simp, by simp⟩

theorem not_readEarly_accesses {d : Designator} (h : x ∉ Expr.allReads d.indices) :
    ¬ ReadEarly x d.accesses := by
  unfold Designator.accesses
  split
  · rintro ⟨before, after, he, -⟩
    have hmem : Access.read x ∈ [Access.assigned d.name] :=
      he ▸ mem_append_right _ (mem_cons_self ..)
    cases mem_singleton.mp hmem
  · rename_i e es hd
    rw [readEarly_reads, ← hd]
    exact h

/-- On every way through statements, what they assign is assigned. -/
theorem Passes.mem_of_someAssigns {ss : List Stmt} (h : Passes ss l) (hx : Stmt.SomeAssigns x ss) :
    .assigned x ∈ l := by
  induction h with
  | done => simp [Stmt.SomeAssigns] at hx
  | @assign target value pos ss l rest ih =>
    simp only [Stmt.SomeAssigns, Stmt.Assigns] at hx
    rcases hx with ⟨hd, rfl⟩ | hx
    · simp [Designator.accesses, hd]
    · exact mem_append_right _ (ih hx)
  | call rest ih | skip rest ih | leave rest ih =>
    simp only [Stmt.SomeAssigns, Stmt.Assigns, false_or] at hx
    exact mem_append_right _ (ih hx)
  | take part rest _ ih =>
    simp only [Stmt.SomeAssigns, Stmt.Assigns, false_or] at hx
    exact mem_append_right _ (ih hx)
  | first part rest ihpart ih =>
    simp only [Stmt.SomeAssigns, Stmt.Assigns] at hx
    rcases hx with ⟨hx, -⟩ | hx
    · exact mem_append_left _ (mem_append_right _ (ihpart hx))
    · exact mem_append_right _ (ih hx)
  | second part rest ihpart ih =>
    simp only [Stmt.SomeAssigns, Stmt.Assigns] at hx
    rcases hx with ⟨-, hx⟩ | hx
    · exact mem_append_left _ (mem_append_right _ (ihpart hx))
    · exact mem_append_right _ (ih hx)
  | round part rest _ ih => exact mem_append_right _ (ih hx)
  | hole rest ih =>
    simp only [Stmt.SomeAssigns, Stmt.Assigns, false_or] at hx
    exact ih hx

/-- On no way is a variable read early that the statements read only behind an assignment. -/
theorem Passes.not_readEarly {ss : List Stmt} (h : Passes ss l) (hx : Stmt.AllSpare x ss) :
    ¬ ReadEarly x l := by
  -- Behind what does not read it early, a variable is read early only if it was not assigned there.
  have behind : ∀ {a b : List Access} {A : Prop}, ¬ ReadEarly x a → (.assigned x ∈ a ∨ A) →
    (A → ¬ ReadEarly x b) → ¬ ReadEarly x (a ++ b) := by
    intro a b A ha hA hb hab
    rcases readEarly_append.mp hab with hab | ⟨hnot, hab⟩
    · exact ha hab
    · exact hb (hA.resolve_left hnot) hab
  induction h with
  | done =>
    rintro ⟨before, after, he, -⟩
    exact append_ne_nil_of_right_ne_nil before (cons_ne_nil _ _) he.symm
  | @assign target value pos ss l rest ih =>
    simp only [Stmt.AllSpare, Stmt.Spares, Stmt.Assigns] at hx
    obtain ⟨⟨hvalue, htarget⟩, hrest⟩ := hx
    have hfront := behind (mt readEarly_reads.mp hvalue) (.inr trivial)
      fun _ => not_readEarly_accesses htarget
    refine behind hfront (hrest.imp_left ?_) ih
    rintro ⟨hd, rfl⟩
    simp [Designator.accesses, hd]
  | call rest ih =>
    simp only [Stmt.AllSpare, Stmt.Spares, Stmt.Assigns, false_or] at hx
    exact behind (mt readEarly_reads.mp hx.1) (.inr hx.2) ih
  | skip rest ih | leave rest ih =>
    simp only [Stmt.AllSpare, Stmt.Spares, Stmt.Assigns, false_or] at hx
    exact behind (mt readEarly_reads.mp hx.1.1) (.inr hx.2) ih
  | take part rest ihpart ih =>
    simp only [Stmt.AllSpare, Stmt.Spares, Stmt.Assigns, false_or] at hx
    exact behind (behind (mt readEarly_reads.mp hx.1.1) (.inr hx.1.2) ihpart) (.inr hx.2) ih
  | first part rest ihpart ih =>
    simp only [Stmt.AllSpare, Stmt.Spares, Stmt.Assigns] at hx
    obtain ⟨⟨hcond, hthen, -⟩, hrest⟩ := hx
    refine behind (behind (mt readEarly_reads.mp hcond) (.inr hthen) ihpart)
      (hrest.imp_left fun hassigns => ?_) ih
    exact mem_append_right _ (part.mem_of_someAssigns hassigns.1)
  | second part rest ihpart ih =>
    simp only [Stmt.AllSpare, Stmt.Spares, Stmt.Assigns] at hx
    obtain ⟨⟨hcond, -, helse⟩, hrest⟩ := hx
    refine behind (behind (mt readEarly_reads.mp hcond) (.inr helse) ihpart)
      (hrest.imp_left fun hassigns => ?_) ih
    exact mem_append_right _ (part.mem_of_someAssigns hassigns.2)
  | round part rest ihpart ih =>
    have hloop := hx
    simp only [Stmt.AllSpare, Stmt.Spares, Stmt.Assigns, false_or] at hx
    exact behind (behind (mt readEarly_reads.mp hx.1.1) (.inr hx.1.2) ihpart) (.inr hloop) ih
  | hole rest ih =>
    simp only [Stmt.AllSpare, Stmt.Spares, Stmt.Assigns, false_or] at hx
    exact ih hx.2

end

/-! ## Runs keep to ways -/

/-- The accesses of a computation begin one of the lists of `P`, and are one if the computation has
a result. -/
structure KeepsTo {α : Type} (P : List Access → Prop) (log : List Access) (result : Option α) :
    Prop where
  begins : ∃ l, P l ∧ log <+: l
  whole : result.isSome = true → P log

/-- The lists of `P` with one of `Q` behind. -/
def Behind (P Q : List Access → Prop) (l : List Access) : Prop :=
  ∃ a b, P a ∧ Q b ∧ l = a ++ b

namespace KeepsTo

variable {α β : Type} {P Q : List Access → Prop} {log : List Access} {o : Option α}

theorem imp (h : KeepsTo P log o) (hPQ : ∀ l, P l → Q l) : KeepsTo Q log o := by
  obtain ⟨l, hl, hp⟩ := h.begins
  exact ⟨⟨l, hPQ l hl, hp⟩, fun ho => hPQ _ (h.whole ho)⟩

/-- Less has a result. -/
theorem weaken {o' : Option β} (h : KeepsTo P log o) (ho : o'.isSome = true → o.isSome = true) :
    KeepsTo P log o' :=
  ⟨h.begins, fun ho' => h.whole (ho ho')⟩

theorem of_eq (h : P log) : KeepsTo P log o :=
  ⟨⟨log, h, prefix_rfl⟩, fun _ => h⟩

theorem of_none {l : List Access} (h : P l) : KeepsTo P [] (none : Option α) :=
  ⟨⟨l, h, nil_prefix⟩, fun ho => by cases ho⟩

/-- What comes behind a computation with a result. -/
theorem andThen {f : α → List Access} {g : α → Option β} (h : KeepsTo P log o) (hQ : ∃ l, Q l)
    (h' : ∀ v, o = some v → KeepsTo Q (f v) (g v)) :
    KeepsTo (Behind P Q) (log ++ o.elim [] f) (o.bind g) := by
  cases o with
  | none =>
    obtain ⟨l, hl, hp⟩ := h.begins
    obtain ⟨l', hl'⟩ := hQ
    refine ⟨⟨l ++ l', ⟨l, l', hl, hl', rfl⟩, ?_⟩, fun ho => by cases ho⟩
    simpa using hp.trans (prefix_append l l')
  | some v =>
    have hlog := h.whole rfl
    obtain ⟨l', hl', hp'⟩ := (h' v rfl).begins
    exact ⟨⟨log ++ l', ⟨log, l', hlog, hl', rfl⟩, (prefix_append_right_inj log).mpr hp'⟩,
      fun ho => ⟨log, f v, hlog, (h' v rfl).whole ho, rfl⟩⟩

end KeepsTo

section

variable {r : World}

/-- The accesses of an expression are its reads, from the first on. -/
abbrev KeepsReads {α : Type} (names : List String) (log : List Access) (result : Option α) : Prop :=
  KeepsTo (· = names.map .read) log result

theorem KeepsReads.append {α β : Type} {names names' : List String} {log : List Access}
    {o : Option α} {f : α → List Access} {g : α → Option β} (h : KeepsReads names log o)
    (h' : ∀ v, o = some v → KeepsReads names' (f v) (g v)) :
    KeepsReads (names ++ names') (log ++ o.elim [] f) (o.bind g) := by
  refine (KeepsTo.andThen (Q := (· = names'.map .read)) h ⟨_, rfl⟩ h').imp ?_
  rintro _ ⟨_, _, rfl, rfl, rfl⟩
  exact map_append.symm

mutual

theorem keepsReads_expr : ∀ (e : Expr) (σ : Store), KeepsReads e.reads (exprAccesses r e σ)
    (evalExpr r e σ)
  | .num n, σ => by
    rw [Expr.reads, exprAccesses]
    exact .of_eq rfl
  | .element name [] pos, σ => by
    rw [Expr.reads, exprAccesses]
    exact .of_eq rfl
  | .element name (e :: es) pos, σ => by
    rw [Expr.reads, exprAccesses, evalExpr]
    refine (keepsReads_indices (e :: es) σ).weaken fun ho => ?_
    cases hv : evalIndices r (e :: es) σ with
    | none => simp [hv] at ho
    | some v => rfl
  | .binary op left right, σ => by
    rw [Expr.reads, exprAccesses, evalExpr]
    refine (KeepsReads.append (g := fun v => evalExpr r right v.2) (keepsReads_expr left σ)
      fun v _ => keepsReads_expr right v.2).weaken fun ho => ?_
    cases hx : evalExpr r left σ with
    | none => simp [hx] at ho
    | some v =>
      cases hy : evalExpr r right v.2 with
      | none => simp [hx, hy] at ho
      | some u => simp [hy]
  | .call .outputNum [] pos, σ => by
    rw [Expr.reads, Expr.firstReads, exprAccesses]
    · exact .of_eq rfl
    · intro e es _ he
      cases he
  | .call .outputNum (e :: es) pos, σ => by
    rw [Expr.reads, Expr.firstReads, exprAccesses, evalExpr]
    · exact (keepsReads_expr e σ).weaken fun ho => by cases ho
    · intro he
      cases he
  | .call .inputNum args pos, σ | .call .outputNewLine args pos, σ | .call (.other n) args pos, σ =>
    by
    rw [Expr.reads, exprAccesses]
    · exact .of_eq rfl
    · intro e es he
      cases he
    · intro he
      cases he
  | .hole, σ => by
    rw [Expr.reads, exprAccesses]
    exact .of_eq rfl

theorem keepsReads_indices : ∀ (es : List Expr) (σ : Store),
    KeepsReads (Expr.allReads es) (indexAccesses r es σ) (evalIndices r es σ)
  | [], σ => by
    rw [Expr.allReads, indexAccesses]
    exact .of_eq rfl
  | e :: es, σ => by
    rw [Expr.allReads, indexAccesses, evalIndices]
    refine (KeepsReads.append (g := fun v => evalIndices r es v.2) (keepsReads_expr e σ)
      fun v _ => keepsReads_indices es v.2).weaken fun ho => ?_
    cases hx : evalExpr r e σ with
    | none => simp [hx] at ho
    | some v =>
      cases hy : evalIndices r es v.2 with
      | none => simp [hx, hy] at ho
      | some u => simp [hy]

end

theorem keepsReads_condition (cond : Relation) (σ : Store) :
    KeepsReads cond.reads (conditionAccesses r cond σ) (evalCondition r cond σ) := by
  refine (KeepsReads.append (g := fun v => evalExpr r cond.right v.2) (keepsReads_expr cond.left σ)
    fun v _ => keepsReads_expr cond.right v.2).weaken fun ho => ?_
  unfold evalCondition at ho
  cases hx : evalExpr r cond.left σ with
  | none => simp [hx] at ho
  | some v =>
    cases hy : evalExpr r cond.right v.2 with
    | none => simp [hx, hy] at ho
    | some u => simp [hy]

theorem keepsTo_assign (d : Designator) (n : Int64) (σ : Store) :
    KeepsTo (· = d.accesses) (assignAccesses r d σ) (evalAssign r d n σ) := by
  unfold assignAccesses evalAssign Designator.accesses
  cases d.indices with
  | nil => exact .of_eq rfl
  | cons e es =>
    refine KeepsTo.weaken (keepsReads_indices (e :: es) σ) fun ho => ?_
    cases hv : evalIndices r (e :: es) σ with
    | none => simp [hv] at ho
    | some v => rfl

theorem keepsReads_call (fn : Builtin) (args : List Expr) (pos : Position) (σ : Store) :
    KeepsReads (Expr.call fn args pos).reads (callAccesses r fn args σ) (evalCall r fn args σ) := by
  cases fn with
  | outputNum =>
    cases args with
    | nil =>
      rw [Expr.reads, Expr.firstReads]
      exact .of_eq rfl
    | cons e es =>
      rw [Expr.reads, Expr.firstReads]
      refine (keepsReads_expr e σ).weaken fun ho => ?_
      cases hv : evalExpr r e σ with
      | none => simp [evalCall, hv] at ho
      | some v => rfl
  | inputNum | outputNewLine | other =>
    rw [Expr.reads]
    · exact .of_eq rfl
    · intro he
      cases he

/-- The accesses on a way through one statement. -/
def Stmt.Passed (s : Stmt) (l : List Access) : Prop :=
  ∀ {ss : List Stmt} {l' : List Access}, Passes ss l' → Passes (s :: ss) (l ++ l')

mutual

/-- There is a way through every statement. -/
theorem Stmt.exists_passed : ∀ s : Stmt, ∃ l, s.Passed l
  | .assign target value pos => ⟨value.reads.map .read ++ target.accesses, .assign⟩
  | .call fn args pos => ⟨(Expr.call fn args pos).reads.map .read, .call⟩
  | .ifThen cond thenPart pos => ⟨cond.reads.map .read, .skip⟩
  | .ifElse cond thenPart elsePart pos => by
    obtain ⟨l, hl⟩ := exists_passes thenPart
    exact ⟨cond.reads.map .read ++ l, .first hl⟩
  | .loop cond body pos => ⟨cond.reads.map .read, .leave⟩
  | .hole => ⟨[], .hole⟩

theorem exists_passes : ∀ ss : List Stmt, ∃ l, Passes ss l
  | [] => ⟨[], .done⟩
  | s :: ss => by
    obtain ⟨l, hl⟩ := s.exists_passed
    obtain ⟨l', hl'⟩ := exists_passes ss
    exact ⟨l ++ l', hl hl'⟩

end

/-- The accesses of a loop keep to its ways if those of its body do. -/
theorem keepsTo_loop (cond : Relation) {body : List Stmt} (pos : Position)
    (hbody : ∀ σ, KeepsTo (Passes body) (stmtsAccesses r body σ) (evalStmts r body σ))
    (n : Nat) (σ : Store) :
    KeepsTo (Stmt.loop cond body pos).Passed
      (loopAccesses r cond (evalStmts r body) (stmtsAccesses r body) n σ)
      (evalLoop (evalCondition r cond) (evalStmts r body) n σ) := by
  induction n generalizing σ with
  | zero => exact .of_none (l := cond.reads.map .read) .leave
  | succ n ih =>
    rw [loopAccesses, evalLoop]
    have hround : ∀ v : Bool × Store, KeepsTo
        (fun l => l = [] ∨ Behind (Passes body) (Stmt.loop cond body pos).Passed l)
        (if v.1 then stmtsAccesses r body v.2 ++ (evalStmts r body v.2).elim []
          (loopAccesses r cond (evalStmts r body) (stmtsAccesses r body) n) else [])
        (if v.1 then (evalStmts r body v.2).bind
        (evalLoop (evalCondition r cond) (evalStmts r body) n) else some v.2) := by
      rintro ⟨holds, σ₁⟩
      cases holds with
      | false => exact .of_eq (.inl rfl)
      | true =>
        exact ((hbody σ₁).andThen (Stmt.exists_passed _) fun σ₂ _ => ih σ₂).imp fun _ hl => .inr hl
    refine (KeepsTo.andThen (keepsReads_condition cond σ) ⟨[], .inl rfl⟩ fun v _ => hround v).imp ?_
    rintro _ ⟨_, _, rfl, rfl | ⟨a, b, ha, hb, rfl⟩, rfl⟩ ss l' hss
    · rw [append_nil]
      exact .leave hss
    · rw [append_assoc, append_assoc, ← append_assoc]
      exact .round ha (hb hss)

mutual

/-- The accesses of a statement keep to its ways. -/
theorem keepsTo_stmt : ∀ (s : Stmt) (σ : Store), KeepsTo s.Passed (stmtAccesses r s σ)
    (evalStmt r s σ)
  | .assign target value pos, σ => by
    rw [stmtAccesses, evalStmt]
    refine (KeepsTo.andThen (Q := (· = target.accesses)) (keepsReads_expr value σ) ⟨_, rfl⟩
      fun v _ => keepsTo_assign target v.1 v.2).imp ?_
    rintro _ ⟨_, _, rfl, rfl, rfl⟩
    exact .assign
  | .call fn args pos, σ => by
    rw [stmtAccesses, evalStmt]
    refine (keepsReads_call fn args pos σ).imp ?_
    rintro _ rfl
    exact .call
  | .ifThen cond thenPart pos, σ => by
    rw [stmtAccesses, evalStmt]
    have hpart : ∀ v : Bool × Store, KeepsTo (fun l => l = [] ∨ Passes thenPart l)
        (if v.1 then stmtsAccesses r thenPart v.2 else [])
        (if v.1 then evalStmts r thenPart v.2 else some v.2) := by
      rintro ⟨holds, σ₁⟩
      cases holds with
      | false => exact .of_eq (.inl rfl)
      | true => exact (keepsTo_stmts thenPart σ₁).imp fun _ hl => .inr hl
    refine (KeepsTo.andThen (keepsReads_condition cond σ) ⟨[], .inl rfl⟩ fun v _ => hpart v).imp ?_
    rintro _ ⟨_, _, rfl, rfl | hl, rfl⟩
    · rw [append_nil]
      exact .skip
    · exact .take hl
  | .ifElse cond thenPart elsePart pos, σ => by
    rw [stmtAccesses, evalStmt]
    have hpart : ∀ v : Bool × Store, KeepsTo (fun l => Passes thenPart l ∨ Passes elsePart l)
        (if v.1 then stmtsAccesses r thenPart v.2 else stmtsAccesses r elsePart v.2)
        (if v.1 then evalStmts r thenPart v.2 else evalStmts r elsePart v.2) := by
      rintro ⟨holds, σ₁⟩
      cases holds with
      | false => exact (keepsTo_stmts elsePart σ₁).imp fun _ hl => .inr hl
      | true => exact (keepsTo_stmts thenPart σ₁).imp fun _ hl => .inl hl
    obtain ⟨l, hl⟩ := exists_passes thenPart
    refine (KeepsTo.andThen (keepsReads_condition cond σ) ⟨l, .inl hl⟩ fun v _ => hpart v).imp ?_
    rintro _ ⟨_, _, rfl, hl | hl, rfl⟩
    · exact .first hl
    · exact .second hl
  | .loop cond body pos, σ => by
    rw [stmtAccesses, evalStmt]
    exact keepsTo_loop cond pos (keepsTo_stmts body) r.rounds σ
  | .hole, σ => by
    rw [stmtAccesses]
    exact .of_eq .hole

/-- The accesses of statements keep to their ways. -/
theorem keepsTo_stmts : ∀ (ss : List Stmt) (σ : Store), KeepsTo (Passes ss) (stmtsAccesses r ss σ)
    (evalStmts r ss σ)
  | [], σ => by
    rw [stmtsAccesses]
    exact .of_eq .done
  | s :: ss, σ => by
    rw [stmtsAccesses, evalStmts]
    refine ((keepsTo_stmt s σ).andThen (exists_passes ss) fun σ₁ _ => keepsTo_stmts ss σ₁).imp ?_
    rintro _ ⟨a, b, ha, hb, rfl⟩
    exact ha hb

end

end

/-- The accesses of a run begin a way through the computation. -/
theorem Computation.exists_passes_accesses (c : Computation) (input : Nat → Int64) (rounds : Nat) :
    ∃ l, Passes c.body l ∧ c.accesses input rounds <+: l :=
  (keepsTo_stmts c.body {}).begins

end SingleAssignment.Source
