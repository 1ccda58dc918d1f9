import Mathlib.Data.List.Induction
import SingleAssignment.Proofs.Aside
import SingleAssignment.Proofs.Calls

/-!
# What calls book

Besides the code, a builder keeps the arrays that were declared and the branches that were deferred.
Three calls book something there; all others only work on code (`Call.worksOnCode`) and leave both
alone. So after any calls the arrays are those whose declaration succeeded (`arrays_after`), and the
deferred branches those whose deferral did (`deferrals_after`), each in the order of the calls.
-/

namespace SingleAssignment.Builder

open Code List

/-! ## Calls that book nothing -/

/-- Whether a call only works on code. -/
def Call.worksOnCode : Call → Bool
  | declareArray .. | deferBranch .. | reconcileLoop .. => false
  | _ => true

theorem Call.run_eq (c : Call) (s : State) : c.run s = endState (c.act s) := by
  unfold Call.run
  split <;> rename_i h <;> rw [h] <;> rfl

theorem endState_discard {α : Type} (m : Build α) (s : State) :
    endState (Functor.discard m s) = endState (m s) := by
  show endState (EStateM.map _ m s) = _
  unfold EStateM.map
  cases m s <;> rfl

/-- A call that only works on code leaves alone what the code has no part in. -/
theorem Call.keeps {γ : Type} {g : State → γ} (h : Aside g) {c : Call} (hc : c.worksOnCode = true) :
    Keeps g c.act := by
  cases c with
  | const n => exact .discard (h.keeps_const n)
  | emit b op x y => exact .discard (h.keeps_emit b op x y)
  | assign b name v => exact .discard (h.keeps_assign b name v)
  | lookup b name => exact .discard (h.keeps_lookup b name)
  | latestVersion b name =>
    refine Keeps.discard (.bind (.block b) fun _ => .bind .get fun s => ?_)
    split
    · exact .pure _
    · exact .throw _
  | numberedVersion b name number =>
    refine Keeps.discard (.bind (.block b) fun _ => .bind .get fun s => ?_)
    dsimp only
    split
    · exact .pure _
    · exact .throw _
  | newBlock d => exact .discard (h.keeps_newBlock d)
  | link p c =>
    exact .bind (.block p) fun _ => .bind (.block c) fun _ => .modify fun s => h.link s p c
  | dominators b => exact (Keeps.dominators b).discard
  | openJoin kind => exact .modify fun s => h.openJoin s kind
  | reconcileIf join => exact h.keeps_reconcileIf join
  | placePhi join name x y =>
    refine Keeps.discard (.bind (.block join) fun _ => .guard fun _ => .bind
      (.instruction _) fun _ =>
      .bind (.instruction _) fun _ => .bind (.modify fun s => ?_) fun _ => .bind .get fun s => ?_)
    · exact (h.merge ..).trans (h.addJoinVar s join name)
    · split
      · exact .pure _
      · exact .pure _
  | resolveBranches => exact h.keeps_resolveBranches
  | array name => exact (Keeps.array name).discard
  | loadElement b name indices => exact .discard (h.keeps_loadElement b name indices)
  | storeElement b name indices v => exact h.keeps_storeElement b name indices v
  | block b => exact (Keeps.block b).discard
  | instruction id => exact (Keeps.instruction id).discard
  | finish => exact h.keeps_finish.discard
  | declareArray name dims => cases hc
  | deferBranch id slot target => cases hc
  | reconcileLoop header bottom branch => cases hc

theorem after_concat (settings : Settings) (calls : List Call) (c : Call) :
    State.after settings (calls ++ [c]) = c.run (State.after settings calls) := by
  rw [State.after, foldl_append]
  rfl

/-! ## Arrays -/

/-- The arrays and where the next one begins, as the calls that work on code leave them. -/
def State.holdings (s : State) : Setup × Int64 × List ArrayInfo :=
  (s.settings, s.nextAddress, s.arrays.map ArrayInfo.layout)

theorem aside_holdings : Aside State.holdings where
  insts _ _ := rfl
  blocks _ _ := rfl
  versions _ _ := rfl
  contexts _ _ := rfl
  diagnostics _ _ := rfl
  epochs s l hl := by rw [State.holdings, State.holdings, hl]
  report _ _ _ := rfl

theorem keeps_holdings_deferBranch (id : InstId) (slot : Int) (target : BlockId) :
    Keeps State.holdings (deferBranch id slot target) := by
  refine .bind (.instruction id) fun i => .guard fun _ => ?_
  split
  · exact .throw _
  · exact .bind (.block target) fun _ => .modify fun s => aside_holdings.modifyInst s id _

/-- Only declaring an array changes what is held. -/
theorem Call.keeps_holdings {c : Call} (hc : ∀ name dims, c ≠ .declareArray name dims) :
    Keeps State.holdings c.act := by
  cases c with
  | deferBranch id slot target => exact keeps_holdings_deferBranch id slot target
  | reconcileLoop header bottom branch =>
    refine Keeps.discard (.bind (aside_holdings.keeps_mergeLoop header bottom) fun _ =>
      .bind (.modify fun s => aside_holdings.repairLoop (fun _ _ => rfl) s header) fun _ =>
      .bind .get fun s => .bind (aside_holdings.keeps_newBlock _) fun exit => ?_)
    split
    · exact .bind (.instruction _) fun _ => .bind (keeps_holdings_deferBranch _ _ _)
        fun _ => .pure _
    · exact .pure _
  | declareArray name dims => exact absurd rfl (hc name dims)
  | _ => exact Call.keeps aside_holdings rfl

/-- The name and the dimensions of an array. -/
def ArrayInfo.shape (a : ArrayInfo) : String × List Int64 :=
  (a.name, a.dims)

/-- Whether an array can be declared after others. -/
def declarable (shapes : List (String × List Int64)) (name : String) (dims : List Int64) : Bool :=
  !dims.isEmpty && dims.all (0 < ·) && !shapes.any (·.1 == name)

/-- The arrays that calls declare. -/
def declared (calls : List Call) : List (String × List Int64) :=
  calls.foldl (fun shapes c => match c with
    | .declareArray name dims =>
      if declarable shapes name dims then shapes ++ [(name, dims)] else shapes
    | _ => shapes) []

theorem declared_concat (calls : List Call) (c : Call) :
    declared (calls ++ [c]) = match c with
      | .declareArray name dims =>
        if declarable (declared calls) name dims then declared calls ++ [(name, dims)] else
            declared calls
      | _ => declared calls := by
  rw [declared, foldl_append]
  rfl

theorem declareArray_eq (s : State) (name : String) (dims : List Int64) :
    declareArray name dims s =
      if dims.isEmpty then .error (.arrayWithoutDimensions name) s
      else match dims.find? (· ≤ 0) with
        | some d => .error (.arrayDimension name d) s
        | none =>
          if (s.array? name).isSome then .error (.arrayDeclared name) s
          else .ok (s.addArray name dims).1 (s.addArray name dims).2 := by
  unfold declareArray
  cases dims.isEmpty with
  | true => rfl
  | false =>
    cases dims.find? (· ≤ 0) with
    | some d => rfl
    | none =>
      simp only [Bool.false_eq_true, if_false]
      show (EStateM.bind EStateM.get _) s = _
      unfold EStateM.bind EStateM.get
      dsimp only
      cases (s.array? name).isSome with
      | true => rfl
      | false => rfl

/-- An array is declared if it can be, and else the call changes nothing. -/
theorem run_declareArray (s : State) (name : String) (dims : List Int64) :
    (Call.declareArray name dims).run s =
      if declarable (s.arrays.map ArrayInfo.shape) name dims then (s.addArray name dims).2 else
        s := by
  have hnames : (s.array? name).isSome = (s.arrays.map ArrayInfo.shape).any (·.1 == name) := by
    rw [State.array?, Bool.eq_iff_iff, find?_isSome, any_map, any_eq_true]
    rfl
  have hdims : dims.find? (· ≤ 0) = none ↔ dims.all (0 < ·) = true := by
    rw [find?_eq_none, all_eq_true]
    refine forall₂_congr fun d _ => ?_
    rw [decide_eq_true_eq, decide_eq_true_eq, Int64.not_le]
  rw [Call.run_eq, Call.act, endState_discard, declareArray_eq, declarable, ← hnames]
  cases dims.isEmpty with
  | true => rfl
  | false =>
    cases hfind : dims.find? (· ≤ 0) with
    | some d =>
      have hall : dims.all (0 < ·) = false :=
        Bool.eq_false_iff.mpr fun hall => by rw [hdims.mpr hall] at hfind; cases hfind
      rw [hall]
      rfl
    | none =>
      rw [hdims.mp hfind]
      cases (s.array? name).isSome with
      | true => rfl
      | false => rfl

theorem holdings_consts (s : State) (n : Int64) (ns : List Int64) :
    ((s.const n).2.consts ns).2.holdings = s.holdings :=
  (aside_holdings.consts _ _).trans (aside_holdings.const _ _)

/-- An array more is held, and the next one begins behind it. -/
theorem holdings_addArray (s : State) (name : String) (dims : List Int64) :
    (s.addArray name dims).2.holdings =
      (s.settings, s.nextAddress + dims.foldl (· * ·) 1 * s.settings.wordSize,
        s.arrays.map ArrayInfo.layout ++ [(s.addArray name dims).1.layout]) := by
  have hheld := holdings_consts
    { s with nextAddress := s.nextAddress + dims.foldl (· * ·) 1 * s.settings.wordSize }
    s.nextAddress (stridesOf dims)
  refine Prod.ext (congrArg (·.1) hheld) (Prod.ext (congrArg (·.2.1) hheld) ?_)
  exact (map_append ..).trans (congrArg (· ++ _) (congrArg (·.2.2) hheld))

theorem mem_layout_of_holdings {s t : State} {a : ArrayInfo} (h : t.holdings = s.holdings)
    (ha : a ∈ t.arrays) : a.layout ∈ s.arrays.map ArrayInfo.layout := by
  rw [← show t.arrays.map ArrayInfo.layout = s.arrays.map ArrayInfo.layout from congrArg (·.2.2) h]
  exact mem_map_of_mem ha

/-- An array after a call was there before, up to its epoch, or is the one that the call
declares. -/
theorem mem_arrays_run {c : Call} {s : State} {a : ArrayInfo} (ha : a ∈ (c.run s).arrays) :
    a.layout ∈ s.arrays.map ArrayInfo.layout ∨ ∃ name dims, dims ≠ [] ∧
      c.run s = (s.addArray name dims).2 ∧ a = (s.addArray name dims).1 := by
  cases c with
  | declareArray name dims =>
    rw [run_declareArray] at ha ⊢
    split at ha
    · rename_i hable
      rw [if_pos hable]
      rcases mem_append.mp ha with ha | ha
      · have hlay := mem_layout_of_holdings (holdings_consts _ _ _) ha
        exact .inl hlay
      · refine .inr ⟨name, dims, fun he => ?_, rfl, mem_singleton.mp ha⟩
        rw [he] at hable
        cases hable
    · exact .inl (mem_map_of_mem ha)
  | _ =>
    rw [Call.run_eq] at ha
    refine .inl (mem_layout_of_holdings ((Call.keeps_holdings ?_).endState_eq s) ha)
    intro name dims he
    cases he

/-! ## Deferred branches -/

/-- The branch that a call defers in a state, if it succeeds. -/
def Call.defers (c : Call) (s : State) : List Deferral :=
  match c with
  | .deferBranch id slot target =>
    match Builder.deferBranch id slot target s, Side.ofIndex? slot with
    | .ok _ _, some side => [⟨id, side, target⟩]
    | _, _ => []
  | .reconcileLoop header bottom branch =>
    match Builder.reconcileLoop header bottom branch s with
    | .ok exit t =>
      if branch = 0 then []
      else [⟨branch, if (t.inst? branch).any (·.op.isConditional) then .y else .x, exit⟩]
    | .error _ _ => []
  | _ => []

/-- The branches that calls of a new builder defer, in the order of the calls. -/
def deferred (settings : Settings) (calls : List Call) : List Deferral :=
  (calls.foldl (fun (s, ds) c => (c.run s, ds ++ c.defers s)) (State.new settings, [])).2

theorem aside_deferrals : Aside State.deferrals where
  insts _ _ := rfl
  blocks _ _ := rfl
  versions _ _ := rfl
  contexts _ _ := rfl
  diagnostics _ _ := rfl
  epochs _ _ _ := rfl
  report _ _ _ := rfl

theorem toList_defer (s : State) (id : InstId) (side : Side) (target : BlockId) :
    (s.defer id side target).deferrals.toList = s.deferrals.toList ++ [⟨id, side, target⟩] := by
  show ((s.modifyInst id _).deferrals.push _).toList = _
  rw [aside_deferrals.modifyInst, Array.toList_push]

theorem deferrals_deferBranch (s : State) (id : InstId) (slot : Int) (target : BlockId) :
    Ends (deferBranch id slot target) s (fun _ t => t.deferrals = s.deferrals) fun _ t =>
      ∃ side, Side.ofIndex? slot = some side ∧ t = s.defer id side target := by
  have hfails : Ends (deferBranch id slot target) s (fun _ t => t.deferrals = s.deferrals)
    fun _ _ => True :=
    ends_deferBranch rfl fun _ _ _ => trivial
  refine ⟨fun a t ht => ?_, hfails.error⟩
  obtain ⟨_, side, -, -, hside, -, ht⟩ := yields_deferBranch a t ht
  exact ⟨side, hside, ht⟩

/-- Closing a loop defers the branch that leaves the header, if there is one. -/
theorem deferrals_reconcileLoop (s : State) (header bottom : BlockId) (branch : InstId) :
    Ends (reconcileLoop header bottom branch) s (fun _ t => t.deferrals = s.deferrals) fun exit t =>
      t.deferrals.toList = s.deferrals.toList ++ if branch = 0 then [] else
        [⟨branch, if (t.inst? branch).any (·.op.isConditional) then .y else .x, exit⟩] := by
  have hkeeps : ∀ {α : Type} {m : Build α} {u : State}, Keeps State.deferrals m →
      u.deferrals = s.deferrals → Ends m u (fun _ t => t.deferrals = s.deferrals)
      fun _ t => t.deferrals = s.deferrals := by
    intro α m u hm hu
    exact hu ▸ hm u
  have hrepair : ∀ u : State, (u.repairLoop header).deferrals = u.deferrals :=
    fun u => aside_deferrals.repairLoop (fun _ _ => rfl) u header
  refine .bind ((hkeeps (aside_deferrals.keeps_mergeLoop header bottom) rfl).imp fun _ u hu =>
    .bind (.modify (.bind (.get (.bind ((hkeeps (aside_deferrals.keeps_newBlock _)
      ((hrepair u).trans hu)).imp fun exit v hv => ?_))))))
  split
  · refine .bind (ends_instruction hv fun i hi => .bind ?_)
    obtain ⟨hok, herr⟩ := deferrals_deferBranch v branch (if i.op.isConditional then 1 else 0) exit
    refine ⟨fun _ t ht => .pure ?_, fun e t ht => (herr e t ht).trans hv⟩
    obtain ⟨side, hside, rfl⟩ := hok _ _ ht
    have hi' : ((v.defer branch side exit).inst? branch).any (·.op.isConditional) =
      i.op.isConditional := by
      show ((v.modifyInst branch _).inst? branch).any _ = _
      rw [State.inst?_modifyInst, if_pos rfl, hi]
      cases side <;> rfl
    rw [toList_defer, hv, hi']
    split at hside <;> cases hside <;> simp_all
  · rename_i hzero
    refine .pure ?_
    rw [if_pos (Decidable.not_not.mp hzero), append_nil, hv]

/-- A call defers no other branches. -/
theorem deferrals_run (c : Call) (s : State) :
    (c.run s).deferrals.toList = s.deferrals.toList ++ c.defers s := by
  cases c with
  | deferBranch id slot target =>
    obtain ⟨hok, herr⟩ := deferrals_deferBranch s id slot target
    rw [Call.run_eq, Call.act, Call.defers]
    cases h : deferBranch id slot target s with
    | ok a t =>
      obtain ⟨side, hside, rfl⟩ := hok _ _ h
      rw [hside]
      exact toList_defer s id side target
    | error e t => exact (congrArg _ (herr _ _ h)).trans (append_nil _).symm
  | reconcileLoop header bottom branch =>
    obtain ⟨hok, herr⟩ := deferrals_reconcileLoop s header bottom branch
    rw [Call.run_eq, Call.act, endState_discard, Call.defers]
    cases h : reconcileLoop header bottom branch s with
    | ok a t => exact hok _ _ h
    | error e t => exact (congrArg _ (herr _ _ h)).trans (append_nil _).symm
  | declareArray name dims =>
    rw [run_declareArray]
    refine .trans ?_ (append_nil _).symm
    split
    · exact congrArg _ ((aside_deferrals.consts _ _).trans (aside_deferrals.const _ _))
    · rfl
  | _ =>
    rw [Call.run_eq, (Call.keeps aside_deferrals rfl).endState_eq s]
    exact (append_nil _).symm

/-- The deferred branches of a state are those that the calls deferred. -/
theorem deferrals_after (settings : Settings) (calls : List Call) :
    (State.after settings calls).deferrals.toList = deferred settings calls := by
  have hall : ∀ (calls : List Call) (s : State) (ds : List Deferral), s.deferrals.toList = ds →
      (calls.foldl (fun s c => c.run s) s).deferrals.toList =
        (calls.foldl (fun (s, ds) c => (c.run s, ds ++ c.defers s)) (s, ds)).2 := by
    intro calls
    induction calls with
    | nil => exact fun _ _ h => h
    | cons c calls ih => exact fun s ds h => ih _ _ ((deferrals_run c s).trans (h ▸ rfl))
  exact hall calls _ _ rfl

end SingleAssignment.Builder
