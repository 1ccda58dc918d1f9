import SingleAssignment.Proofs.Seclusion

/-!
# What instructions record about versions

An instruction records the versions that depend on it. Whenever lowering pauses between two
statements (`Pauses`), a version is recorded by the instruction that it stands for
(`recorded_pausesIn`): an assignment, a version 0, a merge and the repair of a loop leave it so
(`Step.allRecorded`).

The other instructions of its history need not record it (`history_unrecorded`): the repair of a
loop puts other instructions into the history of a version, and records it there only if it comes to
stand for another one.
-/

namespace SingleAssignment.Lowering

open Code Builder Source

/-- Lowering statements from `w` on pauses in `v`: in front of the first one, behind one of them, or
so in a part of one. -/
inductive Pauses (scope : Scope) : List Stmt → Walk → Walk → Prop
  | here : Pauses scope ss w w
  | behind (hst : lowerStmt scope st w = .ok ⟨⟩ w') (hv : Pauses scope ss w' v) :
      Pauses scope (st :: ss) w v
  | ifThen (hopen : openIf scope .ifThen rel w = .ok f w') (hv : Pauses scope thenPart w' v) :
      Pauses scope (.ifThen rel thenPart pos :: ss) w v
  | thenPart (hopen : openIf scope .ifElse rel w = .ok f w') (hv : Pauses scope thenPart w' v) :
      Pauses scope (.ifElse rel thenPart elsePart pos :: ss) w v
  | elsePart (hopen : openIf scope .ifElse rel w = .ok f w₁)
      (hpart : lowerStmts scope thenPart w₁ = .ok ⟨⟩ w₂) (helse : openElse f w₂ = .ok g w')
      (hv : Pauses scope elsePart w' v) :
      Pauses scope (.ifElse rel thenPart elsePart pos :: ss) w v
  | body (hopen : openLoop scope rel w = .ok f w') (hv : Pauses scope body w' v) :
      Pauses scope (.loop rel body pos :: ss) w v

/-- Lowering a computation pauses in `v`. -/
def PausesIn (settings : Settings) (c : Computation) (v : Walk) : Prop :=
  ∃ w, declareArrays c.arrays { builder := .new settings } = .ok ⟨⟩ w ∧
    Pauses ⟨settings.strict, c.vars.map (·.name)⟩ c.body w v

/-- Wherever lowering pauses it can go on. -/
theorem Pauses.canLower {scope : Scope} {ss : List Stmt} {w v : Walk} (h : Pauses scope ss w v) :
    ∀ {F : BlockId}, CanLower F w → ∃ F', CanLower F' v := by
  induction h with
  | here => exact fun hw => ⟨_, hw⟩
  | behind hst _ ih =>
    exact fun hw => ih ((onward_lowerStmt scope _ hw _ _ hst).canLower hw
      (extends_lowerStmt scope _ hw.ready _ _ hst))
  | ifThen hopen _ ih | thenPart hopen _ ih =>
    intro F hw
    obtain ⟨F', hw'⟩ := canLower_openIf scope _ _ hw _ _ hopen
    exact ih hw'
  | elsePart hopen hpart helse _ ih =>
    intro F hw
    obtain ⟨F', hw'⟩ := canLower_openElse scope _ hw (extends_lowerStmts scope _)
      (onward_lowerStmts scope _) hopen hpart _ _ helse
    exact ih hw'
  | body hopen _ ih =>
    intro F hw
    obtain ⟨F', hw'⟩ := canLower_openLoop scope _ hw _ _ hopen
    exact ih hw'

/-- Whenever lowering pauses between two statements, the instruction that a version stands for
records the version. -/
theorem recorded_pausesIn {settings : Settings} {c : Computation} {w : Walk}
    (h : PausesIn settings c w) {v : VersionId} {ver : Version}
    (hver : w.builder.versions[v]? = some ver) (hpos : 0 < ver.inst) :
    ∃ i, w.builder.inst? ver.inst = some i ∧ ver.ref ∈ i.deps := by
  obtain ⟨w₀, hdeclare, hpause⟩ := h
  obtain ⟨hw₀, -⟩ := canLower_declareArrays c.arrays (canLower_new settings 0) rfl _ _ hdeclare
  obtain ⟨F, hw⟩ := hpause.canLower hw₀
  obtain ⟨i, hi⟩ := (hw.issued v ver hver).id.exists_inst? hpos
  exact ⟨i, hi, hw.recorded v ver hver i hi⟩

/-- Lowering pauses behind statements that others follow. -/
theorem pauses_lowerStmts (scope : Scope) (rest : List Stmt) : ∀ (ss : List Stmt) (w : Walk),
    Yields (lowerStmts scope ss) w fun _ v => Pauses scope (ss ++ rest) w v
  | [], _ => .pure .here
  | _ :: ss, _ => .bind (yields_within (.of_ok fun _ w' hst =>
      (pauses_lowerStmts scope rest ss w').imp fun _ _ hv => .behind hst hv) _)

/-- Two variables are set, and set again in a loop that counts the first one up. The sum in the loop
is first taken to be the one that counts. -/
def sumInLoop : List Stmt :=
  let set (name : String) (e : Expr) : Stmt := .assign ⟨name, [], .start⟩ e .start
  let x : Expr := .element "x" [] .start
  [set "x" (.num 0), set "z" (.num 0), .loop ⟨.less, x, .num 3⟩ [set "x" (.binary .add x (.num 1)),
    set "z" (.binary .mul (.binary .add (.num 0) (.num 1)) (.num 2))] .start]

/-- Whether `p` holds of the state behind the loop. -/
def behindLoop (p : State → Bool) : Bool :=
  match lowerStmts ⟨false, []⟩ sumInLoop { builder := .new {} } with
  | .ok _ w => p w.builder
  | .error _ _ => false

/-- Lowering pauses between the loop and a call behind it. -/
theorem exists_pausesIn {p : State → Bool} (h : behindLoop p = true) :
    ∃ w, PausesIn {} ⟨[], [], sumInLoop ++ [.call .outputNewLine [] .start]⟩ w ∧
      p w.builder = true := by
  unfold behindLoop at h
  split at h
  · rename_i w hw
    exact ⟨w, ⟨_, rfl, pauses_lowerStmts _ _ _ _ _ _ hw⟩, h⟩
  · cases h

theorem recorded_pausesIn_sumInLoop : ∃ w, PausesIn {}
    ⟨[], [], sumInLoop ++ [.call .outputNewLine [] .start]⟩ w ∧ ∃ ver i,
      w.builder.versions[3]? = some ver ∧ w.builder.inst? ver.inst = some i ∧ ver.ref ∈ i.deps := by
  have hany : behindLoop (fun s => s.versions[3]?.any fun ver => decide (0 < ver.inst)) = true := by
    decide +kernel
  obtain ⟨w, hpause, hver⟩ := exists_pausesIn hany
  obtain ⟨ver, hver, hpos⟩ := (Option.any_eq_true ..).mp hver
  obtain ⟨i, hi, hdeps⟩ := recorded_pausesIn hpause hver (of_decide_eq_true hpos)
  exact ⟨w, hpause, ver, i, hver, hi, hdeps⟩

/-- An instruction of the history of a version need not record the version. -/
theorem history_unrecorded : ∃ w, PausesIn {}
    ⟨[], [], sumInLoop ++ [.call .outputNewLine [] .start]⟩ w ∧ ∃ ver ∈ w.builder.versions,
      ∃ id ∈ ver.history, ∃ i, w.builder.inst? id = some i ∧ ver.ref ∉ i.deps := by
  have hany : behindLoop (fun s => s.versions.any fun ver => ver.history.any fun id =>
      (s.inst? id).any fun i => !i.deps.contains ver.ref) = true := by decide +kernel
  obtain ⟨w, hpause, hver⟩ := exists_pausesIn hany
  obtain ⟨ver, hver, hid⟩ := Array.any_eq_true'.mp hver
  obtain ⟨id, hid, hi⟩ := List.any_eq_true.mp hid
  obtain ⟨i, hi, hdeps⟩ := (Option.any_eq_true ..).mp hi
  exact ⟨w, hpause, ver, hver, id, hid, i, hi, by simpa using hdeps⟩

end SingleAssignment.Lowering
