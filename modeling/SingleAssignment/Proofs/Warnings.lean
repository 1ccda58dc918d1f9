import SingleAssignment.Proofs.Access
import SingleAssignment.Proofs.Branching

/-!
# Warnings

A variable that is read where it has no value gets version 0, which stands for the constant zero, in
the first block with code. While statements are lowered, each version 0 is made together with a
warning, and no variable gets a second one (`State.Warned`). So the warnings of a program are its
versions 0.

They miss no early read. Where no version of a variable stands above a block (`State.HasVersion`), a
read there makes version 0, and so does a merge of the variable at a join that the block leads to.
By induction on statements, a variable that never gets version 0 is read only behind statements that
assign it on all ways (`assignsFirst_lowerStmts`), and on no way through the tree it is read early.
-/

namespace SingleAssignment

open Code Builder Source List Builder.State

namespace Program

theorem mem_versionsOf {p : Program} {blk : Block} {name : String} {ver : Version} :
    ver ∈ p.versionsOf blk name ↔ ∃ v ∈ blk.table.get name, p.versions[v]? = some ver := by
  simp only [versionsOf, mem_filterMap, mem_reverse]

end Program

namespace Builder

/-! ## Versions 0 -/

namespace State

/-- The variables that have a version 0, in order. -/
def zeros (s : State) : List String :=
  s.versions.toList.filterMap fun ver => if ver.number = 0 then some ver.var else none

/-- Each version 0 stands for the constant zero in the first block with code, a warning tells of it,
and no variable has two. -/
structure Warned (s : State) : Prop where
  names : s.diagnostics.toList.map (·.var) = s.zeros
  nodup : s.zeros.Nodup
  zero : ∀ {v : VersionId} {ver : Version}, s.versions[v]? = some ver → ver.number = 0 →
    ver.block = startBlock ∧ s.HoldsConst ver.inst 0

variable {s t : State}

theorem mem_zeros {name : String} :
    name ∈ s.zeros ↔ ∃ (v : VersionId) (ver : Version), s.versions[v]? = some ver ∧ ver.var = name ∧
      ver.number = 0 := by
  simp only [zeros, mem_filterMap]
  constructor
  · rintro ⟨ver, hver, hname⟩
    obtain ⟨v, hv⟩ := mem_iff_getElem?.mp hver
    rw [Array.getElem?_toList] at hv
    split at hname
    · rename_i hnumber
      exact ⟨v, ver, hv, Option.some.inj hname, hnumber⟩
    · cases hname
  · rintro ⟨v, ver, hv, rfl, hnumber⟩
    exact ⟨ver, Array.mem_toList_iff.mpr (Array.mem_of_getElem? hv), if_pos hnumber⟩

theorem zeros_push {versions : Array Version} {a : Version} (h : t.versions = versions.push a)
    (hs : s.versions = versions) : t.zeros = s.zeros ++ if a.number = 0 then [a.var] else [] := by
  rw [zeros, h, zeros, hs, Array.toList_push, filterMap_append]
  by_cases hnumber : a.number = 0 <;> simp [hnumber]

theorem zeros_modifyVersion {v : VersionId} {f : Version → Version}
    (href : ∀ ver, (f ver).ref = ver.ref) : (s.modifyVersion v f).zeros = s.zeros := by
  have hvar : ∀ ver, (f ver).var = ver.var := fun ver => congrArg (·.var) (href ver)
  have hnumber : ∀ ver, (f ver).number = ver.number := fun ver => congrArg (·.number) (href ver)
  have hlist : ∀ (l : List Version) (n : Nat),
      (l.modify n f).filterMap (fun ver => if ver.number = 0 then some ver.var else none) =
        l.filterMap fun ver => if ver.number = 0 then some ver.var else none := by
    intro l
    induction l with
    | nil => simp
    | cons ver l ih =>
      intro n
      cases n with
      | zero => simp [filterMap_cons, hvar, hnumber]
      | succ n => simp [filterMap_cons, ih n]
  rw [zeros, modifyVersion, Array.toList_modify, hlist]
  rfl

end State

section

variable {F : BlockId} {W : Want → Prop} {s t : State} {l : List (BlockId × InstId × Opcode)}

/-- A step makes no version 0 and no warning, or it gives a variable that has no value the value
zero. -/
theorem Step.zeros_cases (h : Step F W l s t) (hs : Timelines s) :
    t.zeros = s.zeros ∧ t.diagnostics = s.diagnostics ∨ ∃ cause b name, W (.zero cause b name) ∧
      startBlock ∈ s.dominatorsOf b ∧ ¬ s.Held b name ∧ t.zeros = s.zeros ++ [name] ∧
      t.diagnostics = cause.elim s.diagnostics fun why => s.diagnostics.push ⟨b, name, why⟩ := by
  have hsame : t.versions = s.versions → t.ledger = s.ledger →
      t.zeros = s.zeros ∧ t.diagnostics = s.diagnostics := fun hv hl =>
    ⟨by rw [State.zeros, hv, State.zeros], congrArg Prod.snd hl⟩
  cases h with
  | change h =>
    cases h with
    | place hb hempty hop hF hput =>
      obtain ⟨blk, hb⟩ := Option.isSome_iff_exists.mp hb
      exact .inl (hsame (hs.puts_place hb hempty).versions (ledger_place ..))
    | phi hb hop hF =>
      obtain ⟨blk, hb⟩ := Option.isSome_iff_exists.mp hb
      exact .inl (hsame (hs.puts_insertNew hb).versions (ledger_insertNew ..))
    | @mark ver pos hb hF hnumber hwant hissued hput =>
      refine .inl ⟨?_, congrArg Prod.snd (ledger_addVersion ..)⟩
      rw [zeros_push (versions_modifyBlock ..) rfl, if_neg hnumber, append_nil]
    | @zero b name cause hentry hstart hwant hroot hnone hconst =>
      refine .inr ⟨cause, b, name, hwant, hroot, hnone, ?_, ?_⟩
      · exact zeros_push (a := { var := name, number := 0, inst := _,
                                       block := startBlock, src := _ })
          (versions_modifyBlock ..) ((versions_modifyInst ..).trans
          (versions_const hs hentry 0)).symm
      · have hledger : ∀ ver pos, ((s.notedZero name).addVersion ver pos).2.diagnostics =
          s.diagnostics := fun ver pos =>
          congrArg Prod.snd ((ledger_addVersion ..).trans (ledger_notedZero ..))
        rw [State.addZero]
        dsimp only
        rw [hledger]
    | inst => exact .inl (hsame (versions_modifyInst ..) (ledger_modifyInst ..))
    | version href => exact .inl ⟨zeros_modifyVersion href, rfl⟩
    | joined => exact .inl (hsame (versions_modifyBlock ..) (ledger_modifyBlock ..))
    | touched => exact .inl ⟨rfl, rfl⟩
    | books hinsts hversions hblocks hsize hwarned hcontexts =>
      exact .inl ⟨by rw [State.zeros, hversions, State.zeros], hwarned⟩
  | effect hF hb hentry hop hopen =>
    exact .inl (hsame (Step.versions_of_effect hs hb hop) (ledger_place ..))
  | blank hb hentry hnone =>
    exact .inl (hsame (Step.versions_of_blank hnone) (ledger_entryPoint ..))
  | aimed => exact .inl (hsame (versions_modifyInst ..) (ledger_modifyInst ..))
  | outline hinsts hversions hwarned hold hnew hcontexts =>
    exact .inl ⟨by rw [State.zeros, hversions, State.zeros], hwarned⟩
  | opened hwant => exact .inl ⟨rfl, rfl⟩
  | closed hwant hcontexts => exact .inl ⟨rfl, rfl⟩

/-- A constant in front of the changed blocks stays. -/
theorem Step.holdsConst (h : Step F W l s t) (hs : Timelines s) (hF : entryBlock < F)
    {id : InstId} {n : Int64} (hc : s.HoldsConst id n) : t.HoldsConst id n := by
  obtain ⟨i, hi, hop, hx, hblock, hactive⟩ := hc
  obtain ⟨i', hi', hblock', hactive', hface⟩ := h.inst_before hs hi (hblock ▸ hF)
  have hface := hface (by rw [hop]; decide)
  have hop' : i'.op = .const := (congrArg Instruction.op hface).trans hop
  have htarget : ∀ {j : Instruction}, j.op = .const → j.isTarget .x = false := by
    intro j hj
    rw [Instruction.isTarget, hj]
    rfl
  refine ⟨i', hi', hop', ?_, hblock'.trans hblock, hactive' hactive⟩
  have hx' := congrArg Instruction.x hface
  simpa [face, htarget hop, htarget hop', hx] using hx'

/-- Where each value zero that is asked for has a cause, a warning tells of each version 0. -/
theorem Step.warned (h : Step F W l s t) (hs : Timelines s) (hF : entryBlock < F)
    (hW : ∀ cause b name, W (.zero cause b name) → cause.isSome = true) (hw : s.Warned) :
    t.Warned := by
  have hzero : ∀ {v : VersionId} {ver : Version}, t.versions[v]? = some ver → ver.number = 0 →
      ver.block = startBlock ∧ t.HoldsConst ver.inst 0 := by
    intro v ver hv hnumber
    cases h.origin hs hv with
    | @old ver₀ hold href hinst =>
      obtain ⟨-, hb, hn⟩ := VersionRef.mk.inj href
      obtain ⟨hblock, hconst⟩ := hw.zero hold (hn ▸ hnumber)
      refine ⟨hb.trans hblock, ?_⟩
      rw [hb, hblock] at hinst
      rw [hinst.resolve_left fun hlt => Int.lt_irrefl _ hlt.2.1]
      exact h.holdsConst hs hF hconst
    | new hnone hF' hn => exact absurd hnumber hn
    | zero hnone hwant hn hb hconst => exact ⟨hb, hconst⟩
  rcases h.zeros_cases hs with ⟨hz, hd⟩ | ⟨cause, b, name, hwant, hroot, hnone, hz, hd⟩
  · exact ⟨by rw [hd, hz]; exact hw.names, hz ▸ hw.nodup, hzero⟩
  · obtain ⟨why, rfl⟩ := Option.isSome_iff_exists.mp (hW _ _ _ hwant)
    refine ⟨?_, ?_, hzero⟩
    · rw [hd, hz, ← hw.names]
      simp
    · rw [hz]
      refine nodup_append.mpr ⟨hw.nodup, by simp, fun x hx y hy he => hnone ?_⟩
      -- a variable that has version 0 already has a value everywhere
      rw [mem_singleton.mp hy] at he
      subst he
      obtain ⟨v, ver, hv, hvar, hnumber⟩ := mem_zeros.mp hx
      obtain ⟨hblock, i, hi, -, -, -, hactive⟩ := hw.zero hv hnumber
      exact ⟨v, ver, hv, hvar, hblock ▸ hroot, by simp [State.isLive, hi, hactive]⟩

theorem Steps.warned (h : Steps F W l s t) (hs : Timelines s) (hF : entryBlock < F)
    (hW : ∀ cause b name, W (.zero cause b name) → cause.isSome = true) (hw : s.Warned) :
    t.Warned := by
  induction h with
  | refl => exact hw
  | tail hsteps hstep ih => exact hstep.warned (hsteps.logged hs).timelines hF hW (ih hs hw)

/-- A version 0 stays. -/
theorem Steps.mem_zeros (h : Steps F W l s t) (hs : Timelines s) {name : String}
    (hz : name ∈ s.zeros) : name ∈ t.zeros := by
  obtain ⟨v, ver, hv, hvar, hnumber⟩ := State.mem_zeros.mp hz
  obtain ⟨ver', hv', href⟩ := (h.logged hs).persists.version hv
  obtain ⟨hvar', -, hnumber'⟩ := VersionRef.mk.inj href
  exact State.mem_zeros.mpr ⟨v, ver', hv', hvar'.trans hvar, hnumber'.trans hnumber⟩

/-! ## Versions above a block -/

/-- Which versions are made where variables are merged: theirs. -/
def Want.gathered (names : List String) : Want → Prop
  | .mark _ name => name ∈ names
  | _ => True

/-- A version of a variable that has no version 0 was there before, or was asked for in the changed
blocks. -/
theorem Steps.version_cases (h : Steps F W l s t) (hs : Timelines s) {name : String}
    (hz : name ∉ t.zeros) {v : VersionId} {ver : Version} (hv : t.versions[v]? = some ver)
    (hvar : ver.var = name) :
    (∃ ver₀, s.versions[v]? = some ver₀ ∧ ver₀.var = name ∧ ver₀.block = ver.block) ∨
      F ≤ ver.block ∧ W (.mark ver.block name) := by
  induction h generalizing ver with
  | refl => exact .inl ⟨ver, hv, hvar, rfl⟩
  | tail hsteps hstep ih =>
    have ht := (hsteps.logged hs).timelines
    cases hstep.origin ht hv with
    | @old ver₁ hold href =>
      obtain ⟨hvar₁, hb, -⟩ := VersionRef.mk.inj href
      have hmid := ih hs (fun hm => hz ((Steps.step hstep).mem_zeros ht hm)) hold
        (hvar₁.symm.trans hvar)
      rwa [← hb] at hmid
    | new hnone hF hn hwant => exact .inr ⟨hF, hvar ▸ hwant⟩
    | zero hnone hwant hn hb hconst => exact absurd (State.mem_zeros.mpr ⟨v, ver, hv, hvar, hn⟩) hz

theorem State.HasVersion.grows {b b₀ : BlockId} {name : String} (h : s.HasVersion b name)
    (hg : View.Grows b₀ s.view t.view) : t.HasVersion b name := by
  obtain ⟨v, ver, hv, hvar, hdom⟩ := h
  have hview : s.view.versions v = some { ver with history := [] } := by simp [State.view, hv]
  obtain ⟨ver', hver', hvar', hblock, -⟩ := hg.version hview
  obtain ⟨ver₁, hv₁, rfl⟩ := Option.map_eq_some_iff.mp hver'
  have hb : (s.view.graph b).isSome := by
    simpa [State.view] using isSome_block_of_dominatorsOf hdom
  refine ⟨v, ver₁, hv₁, hvar'.trans hvar, ?_⟩
  rw [Lowering.dominatorsOf_eq, hg.doms_eq hb, ← Lowering.dominatorsOf_eq]
  exact hblock ▸ hdom

/-- No version gets above a block where each dominator was above one before that had no version
above it, or is new, and none is asked for there. -/
theorem Steps.not_hasVersion (h : Steps F W l s t) (hs : Timelines s) {name : String}
    (hz : name ∉ t.zeros) {b b' : BlockId} (hnone : ¬ s.HasVersion b name)
    (hdoms : ∀ d ∈ t.dominatorsOf b', (d ∈ s.dominatorsOf b ∨ ∀ (v : VersionId) (ver : Version),
      s.versions[v]? = some ver → ver.block ≠ d) ∧ (d < F ∨ ¬ W (.mark d name))) :
        ¬ t.HasVersion b' name := by
  rintro ⟨v, ver, hv, hvar, hdom⟩
  obtain ⟨habove, hmark⟩ := hdoms _ hdom
  rcases h.version_cases hs hz hv hvar with ⟨ver₀, hv₀, hvar₀, hblock⟩ | ⟨hF, hwant⟩
  · rcases habove with hd | hnew
    · exact hnone ⟨v, ver₀, hv₀, hvar₀, hblock ▸ hd⟩
    · exact hnew v ver₀ hv₀ hblock
  · exact hmark.elim (Int.not_lt.mpr hF) fun hnot => hnot hwant

/-- No version gets above a block that is in front of the changed ones. -/
theorem Steps.not_hasVersion_before (h : Steps F W l s t) (hs : Timelines s) {name : String}
    (hz : name ∉ t.zeros) {b : BlockId} (hb : (s.block? b).isSome)
    (hlt : ∀ d ∈ s.dominatorsOf b, d < F) (hnone : ¬ s.HasVersion b name) :
    ¬ t.HasVersion b name := by
  refine h.not_hasVersion hs hz hnone fun d hd => ?_
  rw [h.dominatorsOf hs hb] at hd
  exact ⟨.inl hd, .inl (hlt d hd)⟩

/-- No version gets above a new block below a block that has none above it, if none is asked for. -/
theorem Steps.not_hasVersion_below (h : Steps F W l s t) (hs : Timelines s) {name : String}
    (hz : name ∉ t.zeros) {b j : BlockId} (hdoms : t.dominatorsOf j = j :: s.dominatorsOf b)
    (hnew : ∀ (v : VersionId) (ver : Version), s.versions[v]? = some ver → ver.block ≠ j)
    (hW : ∀ d, ¬ W (.mark d name)) (hnone : ¬ s.HasVersion b name) : ¬ t.HasVersion j name := by
  refine h.not_hasVersion hs hz hnone fun d hd => ⟨?_, .inr (hW d)⟩
  rw [hdoms] at hd
  rcases mem_cons.mp hd with rfl | hd
  · exact .inr hnew
  · exact .inl hd

/-- A new block has the dominators that it is made with below it. -/
theorem State.dominatorsOf_addBlock (s : State) (d : BlockDraft) :
    (s.addBlock d).2.dominatorsOf (s.addBlock d).1 = (s.addBlock d).1 :: d.dominators := by
  rw [dominatorsOf, map_dominators_addBlock, if_pos (by rfl)]
  rfl

end

section

variable {floor b : BlockId} {s : State} {name : String}

open State

namespace Merging

variable {F j p : BlockId} {W : Want → Prop} {names : List String}

/-- A variable that is merged at a join has a version above both its parents then. -/
theorem hasVersion_reconcile (h : Merging F W j names s) (hs : Laid floor s) (ha : s.AllIssued)
    (hname : name ∈ names) (hp : p ∈ [(s.joinParents j).1, (s.joinParents j).2])
    (hne : p ≠ entryBlock) : (s.reconcile j name).HasVersion p name := by
  have hjoin := hs.addJoinVar (b := j) name
  have hx := (hjoin.laid.readAtEnd (b := (s.joinParents j).1) name (some .partialJoin)).1
  have hy := (hx.laid.readAtEnd (b := (s.joinParents j).2) name (some .partialJoin)).1
  rcases mem_cons.mp hp with rfl | hp
  · have hread := hjoin.laid.hasVersion_readAtEnd name hne ((h.root _ (by simp)).congr hjoin.graph)
      (some .partialJoin)
    exact (Steps.of_changes (hs.changes_reconcile_rest ha h.valid h.low h.start name
      (h.mark name hname) h.root (h.zero name hname _))).hasVersion hx.laid.timelines hread
  · cases mem_singleton.mp hp
    have hread := hx.laid.hasVersion_readAtEnd name hne
      ((h.root _ (by simp)).congr (hx.graph.trans hjoin.graph)) (some .partialJoin)
    exact (Steps.of_changes (hs.changes_reconcile_merge ha h.valid h.low h.start name
      (h.mark name hname) h.root)).hasVersion hy.laid.timelines hread

theorem hasVersion_reconcileAll (h : Merging F W j names s) (hs : Laid floor s) (ha : s.AllIssued)
    (hname : name ∈ names) (hp : p ∈ [(s.joinParents j).1, (s.joinParents j).2])
    (hne : p ≠ entryBlock) : (s.reconcileAll j names).HasVersion p name := by
  obtain ⟨s₁, hc, hw, ha₁, hrest⟩ := h.split_reconcileAll hs ha hname
  have h₁ := (h.congr hw.graph).hasVersion_reconcile hw.laid ha₁ hname
    (joinParents_congr hw.graph j ▸ hp) hne
  exact (Steps.of_changes hrest).hasVersion (hw.laid.reconcile (hw.isSome h.valid)
    name).laid.timelines h₁

end Merging

end

end Builder

namespace Lowering

section

variable {F : BlockId} {x : String} {w w₁ w₂ w' : Walk} {ops ops' : List Opcode}
    {names names' : List String}

/-! ## Expressions -/

/-- The versions stand in blocks that are there. -/
theorem Ready.version_lt (h : Ready F w) {v : VersionId} {ver : Version}
    (hv : w.builder.versions[v]? = some ver) : ver.block < w.builder.view.size := by
  have hview : w.builder.view.versions v = some { ver with history := [] } := by
    simp [State.view, hv]
  exact ((h.sound.laid.layout.graph.valid _).mp (h.sound.laid.layout.listedMark hview).2).2

/-- Reads alone bring no version above the current block. -/
theorem not_hasVersion_of_read {u : Walk} {l : List (BlockId × InstId × Opcode)} (hr : Ready F w)
    (h : Steps w.current Want.read l w.builder u.builder) (hcur : u.current = w.current)
    (hz : x ∉ u.builder.zeros) (hnone : ¬ w.builder.HasVersion w.current x) :
    ¬ u.builder.HasVersion u.current x := by
  have hs := hr.sound.laid.timelines
  refine h.not_hasVersion hs hz hnone fun d hd => ⟨.inl ?_, .inr fun hmark => hmark⟩
  rwa [hcur, h.dominatorsOf hs (isSome_block hr.isSome_current)] at hd

/-- What has a version after reads had one before, unless it gets version 0. -/
theorem Holds.not_mem {names : List String} (hn : Holds w' names) (h : Emits w w' ops)
    (ha : CanAdd F w) (hz : x ∉ w'.builder.zeros) (hnone : ¬ w.builder.HasVersion w.current x) :
    x ∉ names := by
  obtain ⟨l, -, hsteps⟩ := h.steps
  exact fun hx => not_hasVersion_of_read ha.ready hsteps h.current hz hnone (hn x hx)

/-- A condition reads a variable only where it has a version, or gives it version 0. -/
theorem spares_lowerRelation (scope : Scope) (r : Relation) (h : CanAdd F w) :
    Yields (lowerRelation scope r) w fun _ w' =>
      x ∉ w'.builder.zeros → ¬ w.builder.HasVersion w.current x → x ∉ r.reads := by
  refine (lowerRelation_cases scope r h).imp ?_
  rintro id w' ⟨u, w₁, v, w₂, op, hleft, h₁, hu, hright, h₂, hv, -, -, hends⟩ hz
  obtain ⟨l, -, hsteps⟩ := hends.steps
  obtain ⟨-, -, hun⟩ := gives_lowerExpr scope r.left h _ _ hleft
  obtain ⟨-, -, hvn⟩ := gives_lowerExpr scope r.right h₁ _ _ hright
  exact ((hun.emits hv h₁).append hvn).not_mem (hu.trans hv) h fun hm =>
    hz (hsteps.mem_zeros h₂.ready.sound.laid.timelines hm)

end

/-! ## Blocks -/

section

variable {F floor : BlockId} {x : String} {w w₁ w₂ w' : Walk} {ops ops' : List Opcode}

theorem Steady.dominators_lt (h : Steady F w) {b n : BlockId} (hb : b < n) :
    ∀ d ∈ w.builder.dominatorsOf b, d < n := by
  intro d hd
  rw [dominatorsOf_eq] at hd
  exact Int.lt_of_le_of_lt (h.ready.sound.laid.layout.graph.le_of_mem_doms hd).2 hb

/-- No version is above the block that a construct begins with, if none is above the block in
front. -/
theorem Begins.not_hasVersion {kind : JoinKind} {r : BlockId × State} (h : Begins F kind w r)
    (hst : Steady F w) (hz : x ∉ r.2.zeros) (hnone : ¬ w.builder.HasVersion w.current x) :
    ¬ r.2.HasVersion r.1 x := by
  have hsteps : Steps 0 (· = .scope) [] w.builder r.2 := h.steps rfl
  refine hsteps.not_hasVersion_below hst.timelines hz ?_ (fun v ver hv he => ?_)
    (fun d hd => by cases hd) hnone
  · rw [dominatorsOf_eq, dominatorsOf_eq]
    exact h.opens.doms
  · have := hst.ready.version_lt hv
    rw [he, show r.1 = w.builder.view.size from h.opens.current] at this
    exact absurd this (Int.lt_irrefl _)

section

variable {d : BlockDraft} {id : InstId} {side : Side} {s : State} {c : JoinContext} {p q : BlockId}

theorem ClosesIf.steps {W : Want → Prop} (h : ClosesIf floor d id side w s c w') (hst : Steady F w)
    (hps : ∀ b ∈ d.parents, (w.builder.view.graph b).isSome ∧ entryBlock < b)
    (hnodup : d.parents.Nodup) (hW : ∀ a, Want.gathered c.touched a → W a) : Steps w'.current W []
    w.builder w'.builder := by
  have hg := h.gathered hst hps hnodup
  exact (hg.steps (hW _ trivial)).andThen (h.merges hg (fun _ _ _ => hW _ trivial)
    (fun _ hname => hW _ hname) fun _ _ => hW _ trivial)

/-- A variable that is merged behind an `if`, and gets no version 0, has a version above both
parents. -/
theorem ClosesIf.hasVersion (h : ClosesIf floor d id side w s c w') (hst : Steady F w)
    (hparents : d.parents = [p, q]) (hps : ∀ b ∈ d.parents, (w.builder.view.graph b).isSome ∧
      entryBlock < b) (hnodup : d.parents.Nodup)
    (hz : x ∉ w'.builder.zeros) (hx : x ∈ c.touched) {b : BlockId} (hb : b ∈ d.parents) :
    w.builder.HasVersion b x := by
  by_contra hnone
  have hg := h.gathered hst hps hnodup
  have hbuilt := hst.ready.sound.laid.built (fun q hq => (hps q hq).1) hnodup
  have hcur : w'.current = w.builder.view.size := h.current.trans hbuilt.id
  have hjoin : [(s.joinParents w'.current).1, (s.joinParents w'.current).2] = d.parents := by
    have hedges := (hst.ready.sound.laid.edges_addBlock (fun q hq => (hps q hq).1) hnodup).2
      w.builder.view.size
    rw [joinParents_eq, h.view, hcur, hedges, if_pos rfl, hparents]
    rfl
  -- the variable is read at the parent when it is merged, and stays
  have hmerged := (hg.merging (W := fun _ => True) h.valid (fun _ _ _ => trivial)
    (fun _ _ => trivial) fun _ _ => trivial).hasVersion_reconcileAll h.sound.laid hg.issued hx
    (hjoin ▸ hb) (Int.ne_of_gt (hps b hb).2)
  have hworks := h.sound.works (h.sound.laid.reconcileAll h.valid c.touched)
  have hafter : w'.builder.HasVersion b x := by
    rw [h.builder]
    exact hmerged.grows ((hworks.laid.resolveBranches hworks.deferrals).grows 0)
  have hlt : b < w'.current := by
    rw [hcur]
    exact ((hst.ready.sound.laid.layout.graph.valid b).mp (hps b hb).1).2
  exact (h.steps hst hps hnodup fun _ ha => ha).not_hasVersion_before hst.timelines hz
    (isSome_block (hps b hb).1) (hst.dominators_lt hlt) hnone hafter

/-- A variable that is not merged behind an `if` gets no version there. -/
theorem ClosesIf.not_hasVersion (h : ClosesIf floor d id side w s c w') (hst : Steady F w)
    (hps : ∀ b ∈ d.parents, (w.builder.view.graph b).isSome ∧ entryBlock < b)
    (hnodup : d.parents.Nodup) (hdoms : d.dominators = w.builder.dominatorsOf p)
    (hz : x ∉ w'.builder.zeros) (hx : x ∉ c.touched) (hnone : ¬ w.builder.HasVersion p x) :
    ¬ w'.builder.HasVersion w'.current x := by
  have hbuilt := hst.ready.sound.laid.built (fun q hq => (hps q hq).1) hnodup
  have hcur : w'.current = w.builder.view.size := h.current.trans hbuilt.id
  refine (h.steps hst hps hnodup fun _ ha => ha).not_hasVersion_below hst.timelines hz ?_
    (fun v ver hv he => ?_) (fun _ hmark => hx hmark) hnone
  · have hworks := h.sound.laid.reconcileAll h.valid c.touched
    have hsound := h.sound.works hworks
    rw [h.builder, dominatorsOf_eq, View.doms_of_graph
      (hsound.laid.resolveBranches hsound.deferrals).graph, View.doms_of_graph hworks.graph, h.view,
      ← dominatorsOf_eq, h.current, dominatorsOf_addBlock, hdoms]
  · have := hst.ready.version_lt hv
    rw [he, hcur] at this
    exact absurd this (Int.lt_irrefl _)

end

/-! ## Statements -/

/-- What holds of statements between two states for a variable that gets no version 0 and has no
version above the first of them. -/
def AssignsFirst (x : String) (w w' : Walk) (spares assigns : Prop) : Prop :=
  x ∉ w'.builder.zeros → ¬ w.builder.HasVersion w.current x →
    spares ∧ (w'.builder.HasVersion w'.current x → assigns)

/-- The part of an `if` that is lowered first. -/
theorem FirstPart.assignsFirst (scope : Scope) {cond : Relation} {kind : JoinKind} {branch : InstId}
    {r : BlockId × State} {spares assigns : Prop} (h : CanLower F w)
    (hfirst : FirstPart F kind w w₁ w₂ branch ops)
    (hrel : lowerRelation scope cond w = .ok branch w₁) (hb : Begins F kind w₁ r)
    (hpart : Onward ⟨r.2, r.1⟩ w₂ ops') (hminds : AssignsFirst x ⟨r.2, r.1⟩ w₂ spares assigns)
    (hz : x ∉ w₂.builder.zeros) (hnone : ¬ w.builder.HasVersion w.current x) : x ∉ cond.reads ∧
    spares ∧ (w₂.builder.HasVersion w₂.current x → assigns) ∧ ¬ w₂.builder.HasVersion
      w₁.current x := by
  obtain ⟨l, -, -, -, hsteps⟩ := hpart.tells
  have hopen : Steps r.1 (fun _ => True) [] w₁.builder r.2 := hb.steps trivial
  have hz₀ : x ∉ r.2.zeros := fun hm => hz (hsteps.mem_zeros hb.canLower.timelines hm)
  have hz₁ : x ∉ w₁.builder.zeros := fun hm => hz₀ (hopen.mem_zeros hfirst.front.timelines hm)
  have hcond := spares_lowerRelation scope cond h.canAdd _ _ hrel hz₁ hnone
  have hnone₁ : ¬ w₁.builder.HasVersion w₁.current x := by
    obtain ⟨op, -, -, hends⟩ := ends_lowerRelation scope cond h.canAdd _ _ hrel
    obtain ⟨k, -, hread⟩ := hends.steps
    exact not_hasVersion_of_read h.ready hread hends.current hz₁ hnone
  have hall := hopen.trans (hsteps.mono (Int.le_refl _) fun _ _ => trivial)
  have htop : w₁.current < r.1 := by
    rw [show r.1 = w₁.current + 1 from hb.opens.current.trans hfirst.front.ready.newest.symm]
    exact Int.lt_succ _
  obtain ⟨hspares, hassigns⟩ := hminds hz (hb.not_hasVersion hfirst.front hz₀ hnone₁)
  exact ⟨hcond, hspares, hassigns, hall.not_hasVersion_before hfirst.front.timelines hz
    (isSome_block hfirst.front.ready.isSome_current) (hfirst.front.dominators_lt htop) hnone₁⟩

/-- Behind an `if` without `else` a variable has no version if it had none in front. -/
theorem assignsFirst_lowerIfThen (scope : Scope) (cond : Relation) {thenPart : Lower Unit}
    {ms : Walk → List Moment} {spares assigns : Prop} (h : CanLower F w)
    (hext : Extending thenPart ms) (honward : Advancing thenPart ops)
    (hthen : ∀ {F w}, CanLower F w → Yields thenPart w fun _ w' => AssignsFirst x w w'
      spares assigns) :
    Yields (lowerIfThen scope cond thenPart) w fun _ w' => AssignsFirst x w w'
      (x ∉ cond.reads ∧ spares) False := by
  refine .of_ok fun _ w' hw hz hnone => ?_
  obtain ⟨branch, w₁, r, w₂, s, c, hrel, hr, hpart, hclose⟩ :=
    lowerIfThen_cases scope cond h.ready hext _ _ hw
  have hfirst := firstPart scope cond .ifThen h hext honward hrel hr hpart
  have hb := hfirst.front.begins .ifThen rfl rfl (by intro he; cases he) hr
  have h₂ := hfirst.canLower
  have hps : ∀ q ∈ [w₂.current, w₁.current], (w₂.builder.view.graph q).isSome ∧ entryBlock < q := by
    intro q hq
    rcases mem_cons.mp hq with rfl | hq
    · exact ⟨h₂.ready.isSome_current, h₂.ready.entry_lt⟩
    · cases mem_singleton.mp hq
      exact ⟨hfirst.valid.1, hfirst.front.ready.entry_lt⟩
  have hnodup : [w₂.current, w₁.current].Nodup := by simpa using Int.ne_of_gt hfirst.later
  have hz₂ : x ∉ w₂.builder.zeros := fun hm =>
    hz ((hclose.steps h₂.toSteady hps hnodup fun _ => id).mem_zeros h₂.timelines hm)
  obtain ⟨hcond, hspares, -, hfront⟩ := hfirst.assignsFirst scope h hrel hb
    (honward hb.canLower _ _ hpart) (hthen hb.canLower _ _ hpart) hz₂ hnone
  refine ⟨⟨hcond, hspares⟩, fun hhas => ?_⟩
  by_cases hx : x ∈ c.touched
  · exact hfront (hclose.hasVersion h₂.toSteady rfl hps hnodup hz hx (by simp))
  · refine hclose.not_hasVersion h₂.toSteady hps hnodup ?_ hz hx hfront hhas
    exact hfirst.valid.2.symm.trans (dominatorsOf_eq _ _).symm

/-- Between the parts of an `if` a jump ends the first, and the block of the second is made. -/
theorem FirstPart.between {w₃ : Walk} {branch : InstId} {bra : Value} {r : BlockId × State}
    {i : Instruction} (h : FirstPart F .ifElse w w₁ w₂ branch ops)
    (hemit : emitHere .bra {} {} w₂ = .ok bra w₃) (hr : r = w₃.builder.addBlock
      { kind := .elsePart, dominators := w₁.builder.dominatorsOf w₁.current,
        parents := [w₁.current] })
    (hi : r.2.inst? branch = some i) (hbranch : i.op.isBranch = true) :
    Steady (floorAt F w₁.builder) w₃ ∧ w₃.current = w₂.current ∧
      (∃ l, Steps w₂.current Want.read l w₂.builder w₃.builder) ∧
      ∀ {G W}, Steps G W [] w₃.builder (r.2.defer branch .y r.1) := by
  have h₂ := h.canLower
  have hnone : w₂.builder.view.BoundedSource ({} : Value).src := boundedSource_absent _
  have hjump := (ends_emitHere h₂.canAdd .bra rfl _ _ hemit).1
  have hcomp := (computes_emitHere h₂.ready .bra (by decide) (by decide) (by decide) hnone
    hnone _ _ hemit).1
  obtain ⟨l, -, hsteps⟩ := hjump.steps
  have hside : i.isTarget .y = true := by simp [Instruction.isTarget, hbranch]
  have hmade : ∀ {G W}, Steps G W [] w₃.builder r.2 := hr ▸ Steps.addBlock _
  exact ⟨hjump.steady h₂.toSteady hcomp, hcomp.current, ⟨_, hsteps⟩,
    hmade.andThen (.defer hi hside _)⟩

/-- Behind an `if` with `else` a variable has a version only if both parts assign it. -/
theorem assignsFirst_lowerIfElse (scope : Scope) (cond : Relation) {thenPart elsePart : Lower Unit}
    {ms ns : Walk → List Moment} {spares spares' assigns assigns' : Prop} (h : CanLower F w)
    (hext : Extending thenPart ms) (hext' : Extending elsePart ns)
    (honward : Advancing thenPart ops) (honward' : Advancing elsePart ops')
    (hthen : ∀ {F w}, CanLower F w → Yields thenPart w fun _ w' => AssignsFirst x w w'
      spares assigns)
    (helse : ∀ {F w}, CanLower F w → Yields elsePart w fun _ w' => AssignsFirst x w w'
      spares' assigns') :
    Yields (lowerIfElse scope cond thenPart elsePart) w fun _ w' =>
      AssignsFirst x w w' (x ∉ cond.reads ∧ spares ∧ spares') (assigns ∧ assigns') := by
  refine .of_ok fun _ w' hw hz hnone => ?_
  obtain ⟨branch, w₁, r, w₂, bra, w₃, r', w₄, s, c, hrel, hr, hpart, hemit, hr', ⟨i, hi, hbranch⟩,
    hpart', hin, hclose⟩ :=
    lowerIfElse_cases scope cond h.ready hext hext' _ _ hw
  have hfirst := firstPart scope cond .ifElse h hext honward hrel hr hpart
  have hb := hfirst.front.begins .ifElse rfl rfl (by intro he; cases he) hr
  have h₂ := hfirst.canLower
  have hturn := hfirst.turns hemit hr' hi hbranch hin.ready
  have hv := hturn.canLower
  replace hext' := hext' hv.ready _ _ hpart'
  replace honward' := honward' hv _ _ hpart'
  have h₄ := honward'.canLower hv hext'
  have hlater : w₂.current < w₄.current := Int.lt_of_lt_of_le hturn.later hext'.current
  have hps : ∀ q ∈ [w₂.current, w₄.current], (w₄.builder.view.graph q).isSome ∧ entryBlock < q := by
    intro q hq
    rcases mem_cons.mp hq with rfl | hq
    · have hpos := h₂.ready.entry_lt
      have hsize := h₄.ready.newest
      exact ⟨(h₄.ready.sound.laid.layout.graph.valid _).mpr ⟨Int.le_of_lt hpos, by lia⟩, hpos⟩
    · cases mem_singleton.mp hq
      exact ⟨h₄.ready.isSome_current, h₄.ready.entry_lt⟩
  have hnodup : [w₂.current, w₄.current].Nodup := by simpa using Int.ne_of_lt hlater
  -- The steps between the parts, and those of the second.
  obtain ⟨hst₃, hcur₃, ⟨l, hjump⟩, hmade⟩ := hfirst.between hemit hr' hi hbranch
  obtain ⟨l', -, -, -, hsteps⟩ := honward'.tells
  have hrest := (hmade (G := r'.1) (W := fun _ => True)).trans
    (hsteps.mono (Int.le_refl _) fun _ _ => trivial)
  have hz₄ : x ∉ w₄.builder.zeros := fun hm =>
    hz ((hclose.steps h₄.toSteady hps hnodup fun _ => id).mem_zeros h₄.timelines hm)
  have hz₃ : x ∉ w₃.builder.zeros := fun hm => hz₄ (hrest.mem_zeros hst₃.timelines hm)
  have hz₂ : x ∉ w₂.builder.zeros := fun hm => hz₃ (hjump.mem_zeros h₂.timelines hm)
  have hzv : x ∉ (r'.2.defer branch .y r'.1).zeros :=
    fun hm => hz₄ (hsteps.mem_zeros hv.timelines hm)
  obtain ⟨hcond, hspares, hassigns, hfront⟩ := hfirst.assignsFirst scope h hrel hb
    (honward hb.canLower _ _ hpart) (hthen hb.canLower _ _ hpart) hz₂ hnone
  -- No version is above the block in front, nor above the one of the second part.
  have hpre : (w₂.builder.block? w₁.current).isSome := isSome_block hfirst.valid.1
  have hdoms₃ := hjump.dominatorsOf h₂.timelines hpre
  have hdoms₁ : w₂.builder.dominatorsOf w₁.current = w₁.builder.dominatorsOf w₁.current :=
    (dominatorsOf_eq _ _).trans hfirst.valid.2
  have hfront₃ := hjump.not_hasVersion_before h₂.timelines hz₃ hpre (h₂.dominators_lt hfirst.later)
    hfront
  have hpre₃ := (hjump.logged h₂.timelines).block hpre
  have htop : r'.1 = w₃.builder.view.size := congrArg Prod.fst hr'
  have hlt : ∀ {b : BlockId}, b < w₃.builder.view.size → ∀ d ∈ w₃.builder.dominatorsOf b,
    d < r'.1 :=
    fun hb => htop ▸ hst₃.dominators_lt hb
  have hsize₃ := hst₃.ready.newest
  have hnonev : ¬ (r'.2.defer branch .y r'.1).HasVersion r'.1 x := by
    refine (hmade (G := 0) (W := fun _ => False)).not_hasVersion_below (b := w₁.current)
      hst₃.timelines hzv ?_ (fun v ver hver he => ?_) (fun _ hmark => hmark) hfront₃
    · have hdefer : Steps 0 (fun _ => False) [] r'.2 (r'.2.defer branch .y r'.1) :=
        .defer hi (by simp [Instruction.isTarget, hbranch]) _
      have hdoms : r'.2.dominatorsOf r'.1 = r'.1 :: w₁.builder.dominatorsOf w₁.current :=
        hr' ▸ dominatorsOf_addBlock w₃.builder _
      have hmade' : Steps 0 (fun _ => False) [] w₃.builder r'.2 := hr' ▸ Steps.addBlock _
      have hblock : (r'.2.block? r'.1).isSome :=
        isSome_block_of_dominatorsOf (d := r'.1) (hdoms ▸ mem_cons_self ..)
      rw [hdefer.dominatorsOf (hmade'.logged hst₃.timelines).timelines hblock, hdoms,
        hdoms₃, hdoms₁]
    · have := hst₃.ready.version_lt hver
      rw [he, htop] at this
      exact absurd this (Int.lt_irrefl _)
  obtain ⟨hspares', hassigns'⟩ := helse hv _ _ hpart' hz₄ hnonev
  have hfront₄ := hrest.not_hasVersion_before hst₃.timelines hz₄ hpre₃
    (hlt (by have := hfirst.later; lia)) hfront₃
  refine ⟨⟨hcond, hspares, hspares'⟩, fun hhas => ?_⟩
  by_cases hx : x ∈ c.touched
  · have hboth := fun b => hclose.hasVersion (b := b) h₄.toSteady rfl hps hnodup hz hx
    refine ⟨hassigns ?_, hassigns' (hboth _ (by simp))⟩
    by_contra hnone₂
    have hnone₃ := not_hasVersion_of_read h₂.ready hjump hcur₃ hz₃ hnone₂
    rw [hcur₃] at hnone₃
    exact hrest.not_hasVersion_before hst₃.timelines hz₄
      (hcur₃ ▸ isSome_block hst₃.ready.isSome_current) (hlt (by lia)) hnone₃
      (hboth _ (by simp))
  · refine absurd hhas (hclose.not_hasVersion h₄.toSteady hps hnodup ?_ hz hx hfront₄)
    rw [hrest.dominatorsOf hst₃.timelines hpre₃, hdoms₃, hdoms₁]

section

variable {v w'' : Walk} {branch bra : InstId} {s u t : State} {c : JoinContext}

/-- When a loop is closed, versions are made of variables that are merged at its header. -/
theorem Completes.closing (h : Completes F w v w' w'' branch bra ops c s u t) :
    Steps v.current (Want.gathered c.touched) [] w'.builder w''.builder := by
  have hchanges := h.changes (W := Want.gathered c.touched) (fun _ _ _ => trivial)
    (fun _ _ hname => hname) fun _ _ => trivial
  have hmade : Steps v.current (Want.gathered c.touched) [] u (u.addExit v.current).2 := .addBlock _
  exact (((h.linked.steps trivial).andThen (.of_changes hchanges)).andThen hmade).andThen h.resolves

/-- The block behind a loop is below its header. -/
theorem Completes.dominators_exit (h : Completes F w v w' w'' branch bra ops c s u t) :
    w''.builder.dominatorsOf w''.current = w''.current :: w'.builder.dominatorsOf v.current := by
  have hclose := h.closes
  have hst := h.cycles.steady
  have hbranches := hclose.sound.laid.resolveBranches hclose.sound.deferrals
  have hlink : Steps 0 (fun _ => True) [] w'.builder s := h.linked.steps trivial
  have hvalid : (w'.builder.block? v.current).isSome := by
    refine isSome_block ((hst.ready.sound.laid.layout.graph.valid _).mpr ⟨?_, ?_⟩)
    · exact Int.le_of_lt h.cycles.begins.canLower.ready.entry_lt
    · rw [← hst.ready.newest]
      exact Int.lt_trans h.cycles.later (Int.lt_succ _)
  rw [hclose.builder, dominatorsOf_eq, View.doms_of_graph hbranches.graph, hclose.view,
    ← dominatorsOf_eq, hclose.current, State.addExit, dominatorsOf_addBlock, dominatorsOf_eq,
    View.doms_of_graph h.works.graph, ← dominatorsOf_eq, hlink.dominatorsOf hst.timelines hvalid]

/-- A variable that is merged at the header of a loop has a version above the block in front of
it. -/
theorem Completes.hasVersion (h : Completes F w v w' w'' branch bra ops c s u t)
    (hx : x ∈ c.touched) : w''.builder.HasVersion w.current x := by
  have hclose := h.closes
  have hg := h.linked.gathered h.cycles hclose.linked
  have hfirst : (s.joinParents v.current).1 = w.current := congrArg Prod.fst h.linked.joinParents
  have hmerged := (hg.merging (W := fun _ => True) hclose.valid (fun _ _ _ => trivial)
    (fun _ _ => trivial) fun _ _ => trivial).hasVersion_reconcileAll hclose.linked.laid hg.issued hx
    (mem_cons_self ..) (hfirst ▸ Int.ne_of_gt h.cycles.front.ready.entry_lt)
  have hrec := hclose.linked.works (hclose.works h.low).1
  have hrepaired := hmerged.grows ((hrec.laid.repairLoop h.low hrec.closed).grows 0)
  rw [hfirst, ← hclose.repaired] at hrepaired
  have hmade : Steps v.current (fun _ => True) [] u (u.addExit v.current).2 := .addBlock _
  exact (h.resolves (W := fun _ => True)).hasVersion hclose.made.laid.timelines
    (hmade.hasVersion h.works.laid.timelines hrepaired)

end

/-- Behind a loop a variable has no version if it had none in front. -/
theorem assignsFirst_lowerLoop (scope : Scope) (cond : Relation) {body : Lower Unit}
    {ms : Walk → List Moment} {spares assigns : Prop} (h : CanLower F w) (hext : Extending body ms)
    (honward : Advancing body ops) (hbody : ∀ {F w}, CanLower F w →
      Yields body w fun _ w' => AssignsFirst x w w' spares assigns) :
    Yields (lowerLoop scope cond body) w fun _ w' => AssignsFirst x w w' (x ∉ cond.reads ∧ spares)
      False := by
  refine .of_ok fun _ w' hw hz hnone => ?_
  obtain ⟨v, branch, w₁, r, w₂, bra, w₃, c, s, u, t, hrel, hr, hv', hpart, hemit, hdone⟩ :=
    lowerLoop_cycles scope cond h hext honward _ _ hw
  have hcyc := hdone.cycles
  have hv := hcyc.begins.canLower
  have hst₃ := hcyc.steady
  -- The steps of the condition, of the body and of the jump back, and those that close the loop.
  obtain ⟨op, -, -, hends⟩ := ends_lowerRelation scope cond hv.canAdd _ _ hrel
  obtain ⟨l₁, -, hread⟩ := hends.steps
  have hst₁ := hends.steady hv.toSteady (computes_lowerRelation scope cond hv.ready _ _ hrel)
  have hmade : ∀ {G W}, Steps G W [] w₁.builder r.2 := hr ▸ Steps.addBlock _
  have honward := honward hv' _ _ hpart
  obtain ⟨l₂, -, -, -, hrun⟩ := honward.tells
  have h₂ := honward.canLower hv' (hext hv'.ready _ _ hpart)
  obtain ⟨l₃, -, hjump⟩ := (ends_emitHere h₂.canAdd .bra rfl _ _ hemit).1.steps
  have hclosing := hdone.closing
  have hz₃ : x ∉ w₃.builder.zeros := fun hm => hz (hclosing.mem_zeros hst₃.timelines hm)
  have hz₂ : x ∉ w₂.builder.zeros := fun hm => hz₃ (hjump.mem_zeros h₂.timelines hm)
  have hzr : x ∉ r.2.zeros := fun hm => hz₂ (hrun.mem_zeros hv'.timelines hm)
  have hz₁ : x ∉ w₁.builder.zeros := fun hm =>
    hzr ((hmade (G := 0) (W := fun _ => True)).mem_zeros hst₁.timelines hm)
  have hzv : x ∉ v.builder.zeros := fun hm => hz₁ (hread.mem_zeros hv.timelines hm)
  -- No version is above the header, nor above the body.
  have hnonev := hcyc.begins.not_hasVersion h.toSteady hzv hnone
  have hcond := spares_lowerRelation scope cond hv.canAdd _ _ hrel hz₁ hnonev
  have hnone₁ := not_hasVersion_of_read hv.ready hread hends.current hz₁ hnonev
  have htop : r.1 = w₁.builder.view.size := congrArg Prod.fst hr
  have hnoner : ¬ r.2.HasVersion r.1 x := by
    refine (hmade (G := 0) (W := fun _ => False)).not_hasVersion_below hst₁.timelines hzr ?_
      (fun v ver hver he => ?_) (fun _ hmark => hmark) hnone₁
    · rw [hr, dominatorsOf_addBlock, hends.current]
    · have := hst₁.ready.version_lt hver
      rw [he, htop] at this
      exact absurd this (Int.lt_irrefl _)
  obtain ⟨hspares, -⟩ := hbody hv' _ _ hpart hz₂ hnoner
  refine ⟨⟨hcond, hspares⟩, fun hhas => ?_⟩
  by_cases hx : x ∈ c.touched
  · obtain ⟨l, -, -, -, hinner⟩ := hcyc.inner.tells
    have hopen : Steps v.current (fun _ => True) [] w.builder v.builder := hcyc.begins.steps trivial
    have hall := (hopen.trans (hinner.mono (Int.le_refl _) fun _ _ => trivial)).andThen
      (hclosing.mono (Int.le_refl _) fun _ _ => trivial)
    have hlt : w.current < v.current := by
      rw [hcyc.header, ← h.ready.newest]
      exact Int.lt_succ _
    exact hall.not_hasVersion_before h.timelines hz (isSome_block h.ready.isSome_current)
      (h.dominators_lt hlt) hnone (hdone.hasVersion hx)
  · have hbody := ((hmade (G := r.1) (W := fun _ => True)).trans
      (hrun.mono (Int.le_refl _) fun _ _ => trivial)).trans
      (hjump.mono honward.current fun _ _ => trivial)
    have hlt : w₁.current < r.1 := by
      rw [htop, ← hst₁.ready.newest]
      exact Int.lt_succ _
    have hnone₃ := hbody.not_hasVersion_before hst₁.timelines hz₃
      (isSome_block hst₁.ready.isSome_current) (hst₁.dominators_lt hlt) hnone₁
    rw [hends.current] at hnone₃
    refine hclosing.not_hasVersion_below hst₃.timelines hz hdone.dominators_exit
      (fun i ver hver he => ?_) (fun _ hmark => hx hmark) hnone₃ hhas
    have := hst₃.ready.version_lt hver
    rw [he, hdone.repeats.current] at this
    exact absurd this (Int.lt_irrefl _)

/-- An assignment gives its target a version, and no other variable. -/
theorem assignsFirst_lowerAssign (scope : Scope) (d : Designator) {v : Value} (h : CanLower F w)
    (hvi : w.builder.IssuedValue v) : Yields (lowerAssign scope d v) w fun _ w' =>
      AssignsFirst x w w' (x ∉ Expr.allReads d.indices) (d.indices = [] ∧ d.name = x) := by
  unfold lowerAssign
  split
  · rename_i hd
    refine .bind (yields_within (yields_checkScalar fun _ => .bind (yields_current
      (.discard (yields_build (yields_assign.imp ?_))))) _)
    rintro c s ⟨-, -, rfl⟩ hz hnone
    rw [hd, Expr.allReads]
    refine ⟨not_mem_nil, fun hhas => ⟨rfl, ?_⟩⟩
    by_contra hne
    have hsteps : Steps w.current (fun a => ∃ b, a = .mark b d.name) [] w.builder
        (w.builder.assign w.current d.name v).2 :=
      .of_changes (.assign (isSome_block h.ready.isSome_current) (Int.le_refl _)
        h.opened ⟨_, rfl⟩ hvi)
    refine hsteps.not_hasVersion h.timelines hz hnone (fun b hb => ⟨.inl ?_, .inr ?_⟩) hhas
    · rwa [hsteps.dominatorsOf h.timelines (isSome_block h.ready.isSome_current)] at hb
    · rintro ⟨_, he⟩
      cases he
      exact hne rfl
  · rename_i e es hd
    refine .bind (yields_within (((computes_lowerIndices scope (e :: es) h.ready).and
      (gives_lowerIndices scope (e :: es) h.canAdd)).imp ?_) _)
    rintro indices w₁ ⟨⟨hc, -⟩, he, -, hn⟩
    have h₁ := he.canAdd h.canAdd (hc.ready h.ready)
    refine .bind (yields_current (yields_located (yields_within (yields_callBuilder
      ((steps_storeElement h₁).imp ?_)) _) _ _))
    rintro _ s ⟨id, hstore⟩ hz hnone
    obtain ⟨l, -, hsteps⟩ := he.steps
    have hz₁ : x ∉ w₁.builder.zeros :=
      fun hm => hz (hstore.mem_zeros h₁.ready.sound.laid.timelines hm)
    have hnone₁ := not_hasVersion_of_read h.ready hsteps he.current hz₁ hnone
    rw [hd]
    refine ⟨hn.not_mem he h.canAdd hz₁ hnone, fun hhas => ?_⟩
    exact absurd hhas (not_hasVersion_of_read (u := { w₁ with builder := s }) h₁.ready hstore
      rfl hz hnone₁)

mutual

/-- A statement reads a variable only behind an assignment to it, if the variable has no version in
front and gets no version 0, and behind the statement it has a version only if the statement assigns
it. -/
theorem assignsFirst_lowerStmt (scope : Scope) : ∀ (st : Stmt) {F : BlockId} {w : Walk},
    CanLower F w → Yields (lowerStmt scope st) w fun _ w' => AssignsFirst x w w' (st.Spares x)
      (st.Assigns x)
  | .assign target value pos, F, w, h => by
    rw [lowerStmt, Stmt.Spares, Stmt.Assigns]
    refine .bind (yields_within (((computes_lowerExpr scope value h.ready).and
      (gives_lowerExpr scope value h.canAdd)).imp ?_) _)
    rintro v w₁ ⟨⟨hc, hb⟩, he, hv, hn⟩
    have h₁ := (he.onward h hc).canLower h (hc.extends h.ready)
    refine yields_within (((onward_lowerAssign scope target h₁ hb hv).and
      (assignsFirst_lowerAssign (x := x) scope target h₁ hv)).imp ?_) _
    rintro _ w' ⟨hw, hminds⟩ hz hnone
    obtain ⟨l, -, -, -, hsteps⟩ := hw.tells
    obtain ⟨l', -, hread⟩ := he.steps
    have hz₁ : x ∉ w₁.builder.zeros := fun hm => hz (hsteps.mem_zeros h₁.timelines hm)
    obtain ⟨hrest, hassigns⟩ := hminds hz (not_hasVersion_of_read h.ready hread
      he.current hz₁ hnone)
    exact ⟨⟨hn.not_mem he h.canAdd hz₁ hnone, hrest⟩, hassigns⟩
  | .call fn args pos, F, w, h => by
    rw [lowerStmt, Stmt.Spares, Stmt.Assigns]
    refine .discard (yields_within
      ((gives_lowerCall h.canAdd (gives_lowerArgument scope args h.canAdd)
      ((computes_lowerArgument scope args h.ready).imp fun _ _ hc => hc.1.ready h.ready)).imp ?_) _)
    rintro _ w' ⟨he, -, hn⟩ hz hnone
    obtain ⟨l, -, hsteps⟩ := he.steps
    exact ⟨hn.not_mem he h.canAdd hz hnone, not_hasVersion_of_read h.ready hsteps
      he.current hz hnone⟩
  | .ifThen cond thenPart pos, F, w, h => by
    rw [lowerStmt, Stmt.Spares, Stmt.Assigns]
    exact yields_within (assignsFirst_lowerIfThen scope cond h (extends_lowerStmts scope thenPart)
      (onward_lowerStmts scope thenPart) (assignsFirst_lowerStmts scope thenPart)) _
  | .ifElse cond thenPart elsePart pos, F, w, h => by
    rw [lowerStmt, Stmt.Spares, Stmt.Assigns]
    exact yields_within (assignsFirst_lowerIfElse scope cond h (extends_lowerStmts scope thenPart)
      (extends_lowerStmts scope elsePart) (onward_lowerStmts scope thenPart)
      (onward_lowerStmts scope elsePart) (assignsFirst_lowerStmts scope thenPart)
      (assignsFirst_lowerStmts scope elsePart)) _
  | .loop cond body pos, F, w, h => by
    rw [lowerStmt, Stmt.Spares, Stmt.Assigns]
    exact yields_within (assignsFirst_lowerLoop scope cond h (extends_lowerStmts scope body)
      (onward_lowerStmts scope body) (assignsFirst_lowerStmts scope body)) _
  | .hole, _, _, _ => .throw trivial

theorem assignsFirst_lowerStmts (scope : Scope) : ∀ (ss : List Stmt) {F : BlockId} {w : Walk},
    CanLower F w → Yields (lowerStmts scope ss) w fun _ w' => AssignsFirst x w w'
      (Stmt.AllSpare x ss) (Stmt.SomeAssigns x ss)
  | [], _, w, h => by
    rw [lowerStmts, Stmt.AllSpare, Stmt.SomeAssigns]
    exact .pure fun _ hnone => ⟨trivial, hnone⟩
  | st :: ss, F, w, h => by
    rw [lowerStmts, Stmt.AllSpare, Stmt.SomeAssigns]
    refine .bind (yields_within (((extends_lowerStmt scope st h.ready).and
      ((onward_lowerStmt scope st h).and (assignsFirst_lowerStmt scope st h))).imp ?_) _)
    rintro _ w₁ ⟨hext, honward, hfirst⟩
    have h₁ := honward.canLower h hext
    refine ((onward_lowerStmts scope ss h₁).and (assignsFirst_lowerStmts scope ss h₁)).imp ?_
    rintro _ w' ⟨honward', hrest⟩ hz hnone
    obtain ⟨l, -, -, -, hsteps⟩ := honward'.tells
    obtain ⟨hspares, hassigns⟩ := hfirst (fun hm => hz (hsteps.mem_zeros h₁.timelines hm)) hnone
    by_cases hhas : w₁.builder.HasVersion w₁.current x
    · exact ⟨⟨hspares, .inl (hassigns hhas)⟩, fun _ => .inl (hassigns hhas)⟩
    · obtain ⟨hall, hsome⟩ := hrest hz hhas
      exact ⟨⟨hspares, .inr hall⟩, fun hhas' => .inr (hsome hhas')⟩

end

end

/-! ## Programs -/

theorem warned_new (settings : Settings) : (State.new settings).Warned where
  names := rfl
  nodup := nodup_nil
  zero := fun hv => by cases hv

section

variable {settings : Settings} {c : Computation} {p : Program} {w : Walk} {id : InstId}
    {t : State} {x : String}

theorem Concludes.warned (h : Concludes settings c p w id t) : t.Warned := by
  obtain ⟨l, -, -, -, hsteps⟩ := h.body.tells
  have hnew := (canLower_new settings 0).timelines
  have hw : w.builder.Warned := by
    refine hsteps.warned hnew (canLower_new settings 0).ready.entry_lt
      (fun cause b name hwant => ?_) (warned_new settings)
    rcases hwant with hscope | htold
    · cases hscope
    · exact htold
  exact h.steps.warned h.canLower.timelines h.canLower.ready.entry_lt (fun _ _ _ hread => hread) hw

/-- The versions 0 of a program stand in its first block with code. -/
theorem Concludes.mem_zeros_iff (h : Concludes settings c p w id t) :
    x ∈ t.zeros ↔ ∃ blk, p.block? startBlock = some blk ∧ ∃ ver ∈ p.versionsOf blk x,
      ver.number = 0 := by
  rw [mem_zeros]
  constructor
  · rintro ⟨v, ver, hv, hvar, hnumber⟩
    have hview : t.view.versions v = some { ver with history := [] } := by simp [State.view, hv]
    have hmem := (mem_filter.mp (h.laid.layout.listedMark hview).1).1
    rw [show ({ ver with history := [] } : Version).block = startBlock
      from (h.warned.zero hv hnumber).1] at hmem
    have hfiled := h.laid.timelines.tabled.mem_versionsOf.mpr ⟨hmem, ver, hv, hvar⟩
    cases hblk : t.block? startBlock with
    | none => simp [State.timelineOf, hblk] at hmem
    | some blk =>
      rw [State.versionsOf, State.tableOf, hblk] at hfiled
      exact ⟨blk, (h.holds.block?_eq _).trans hblk, ver,
        Program.mem_versionsOf.mpr ⟨v, hfiled, h.versions ▸ hv⟩, hnumber⟩
  · rintro ⟨blk, hblk, ver, hver, hnumber⟩
    obtain ⟨v, hfiled, hv⟩ := Program.mem_versionsOf.mp hver
    rw [h.holds.block?_eq] at hblk
    have hmem : v ∈ t.versionsOf startBlock x := by
      rw [State.versionsOf, State.tableOf, hblk]
      exact hfiled
    obtain ⟨ver', hv', -, hvar⟩ := h.laid.timelines.version_of_mem hmem
    cases (h.versions ▸ hv).symm.trans hv'
    exact ⟨v, ver, hv', hvar, hnumber⟩

/-- A variable that has no version 0 in the end is read behind assignments to it only. -/
theorem Concludes.allSpare (h : Concludes settings c p w id t) (hz : x ∉ t.zeros) :
    Stmt.AllSpare x c.body := by
  obtain ⟨w₁, hdeclare, hp₁, hlower⟩ := h.lowered
  have hnew := canLower_new settings 0
  have hzw : x ∉ w.builder.zeros := fun hm => hz (h.steps.mem_zeros h.canLower.timelines hm)
  obtain ⟨l, -, -, -, hsteps⟩ := (onward_lowerStmts _ c.body hp₁ _ _ hlower).tells
  have hz₁ : x ∉ w₁.builder.zeros := fun hm => hzw (hsteps.mem_zeros hp₁.timelines hm)
  refine (assignsFirst_lowerStmts _ c.body hp₁ _ _ hlower hzw ?_).1
  rintro ⟨v, ver, hv, hvar, -⟩
  have hchanges := (changes_declareArrays (F := 0) (W := fun _ => False) c.arrays
    hnew.ready.sound.laid _ _ hdeclare).2.1
  rcases (Steps.of_changes hchanges).version_cases hnew.timelines hz₁ hv hvar with ⟨ver₀, hold,
    -⟩ | ⟨-, hwant⟩
  · cases hold
  · exact hwant

end

/-- A program has at most one warning for a variable, and it has one exactly if its first block with
code holds version 0 of the variable, which then stands for the constant zero. Without a warning, no
way through the statements reads the variable before it is assigned, and so no run does, on any
input. -/
theorem warnings_of_lower {settings : Settings} {c : Computation} {p : Program}
    (h : lower settings c = .ok p) (x : String) :
    (p.diagnostics.toList.filter (·.var = x)).length ≤ 1 ∧ ((∃ d ∈ p.diagnostics, d.var = x) ↔
        ∃ blk, p.block? startBlock = some blk ∧ ∃ ver ∈ p.versionsOf blk x, ver.number = 0) ∧
      (∀ ver ∈ p.versions, ver.number = 0 → ver.block = startBlock ∧
        ∃ i, p.inst? ver.inst = some i ∧ i.op = .const ∧ i.x = .literal 0 ∧ i.active = true) ∧
      ((∀ d ∈ p.diagnostics, d.var ≠ x) → (∀ l, Passes c.body l → ¬ ReadEarly x l) ∧
        ∀ input rounds, ¬ ReadEarly x (c.accesses input rounds)) := by
  obtain ⟨w, id, t, hc⟩ := lower_concludes h
  have hw := hc.warned
  rw [hc.diagnostics, hc.versions]
  have hmem : (∃ d ∈ t.diagnostics, d.var = x) ↔ x ∈ t.zeros := by
    simp only [← hw.names, mem_map, Array.mem_toList_iff]
  refine ⟨?_, hmem.trans hc.mem_zeros_iff, fun ver hver hnumber => ?_, fun hnone => ?_⟩
  · have hcount := nodup_iff_count.mp (hw.names ▸ hw.nodup) x
    rwa [List.count, countP_map, countP_eq_length_filter] at hcount
  · obtain ⟨v, hv⟩ := Array.mem_iff_getElem?.mp hver
    obtain ⟨hblock, i, hi, hop, hx, -, hactive⟩ := hw.zero hv hnumber
    exact ⟨hblock, i, (hc.holds.inst?_eq _).trans hi, hop, hx, hactive⟩
  · have hspare := hc.allSpare fun hz => by
      obtain ⟨d, hd, hvar⟩ := hmem.mpr hz
      exact hnone d hd hvar
    refine ⟨fun l hl => hl.not_readEarly hspare, fun input rounds hearly => ?_⟩
    obtain ⟨l, hl, hprefix⟩ := c.exists_passes_accesses input rounds
    exact hl.not_readEarly hspare (hearly.of_prefix hprefix)

/-- A variable that one part of an `if` assigns, one that both assign, and a loop that reads
both. -/
def assignedInParts : Computation where
  vars := []
  arrays := []
  body :=
    let read (name : String) : Expr := .element name [] .start
    let set (name : String) (e : Expr) : Stmt := .assign ⟨name, [], .start⟩ e .start
    [set "n" (.call .inputNum [] .start),
      .ifElse ⟨.less, read "n", .num 3⟩ [set "both" (.num 1), set "one" (.num 1)]
      [set "both" (.num 2)] .start, .loop ⟨.less, read "both", read "n"⟩
      [set "both" (.binary .add (read "both") (read "one"))] .start]

theorem warnings_assignedInParts : ∃ p, lower {} assignedInParts = .ok p ∧
    p.diagnostics.toList.map (·.var) = ["one"] ∧
    (∃ blk, p.block? startBlock = some blk ∧ ∃ ver ∈ p.versionsOf blk "one", ver.number = 0) ∧
    ∀ input rounds, ¬ ReadEarly "both" (assignedInParts.accesses input rounds) := by
  have hany : (lower {} assignedInParts).toOption.any (fun p =>
      p.diagnostics.toList.map (·.var) == ["one"]) = true := by decide +kernel
  cases hp : lower {} assignedInParts with
  | error r => simp [hp, Except.toOption] at hany
  | ok p =>
    simp only [hp, Except.toOption, Option.any_some, beq_iff_eq] at hany
    obtain ⟨d, hd, hvar⟩ := mem_map.mp (hany ▸ mem_singleton_self "one")
    refine ⟨p, rfl, hany, ((warnings_of_lower hp "one").2.1).mp
      ⟨d, Array.mem_toList_iff.mp hd, hvar⟩,
      ((warnings_of_lower hp "both").2.2.2 fun d hd he => ?_).2⟩
    have hmem := mem_map_of_mem (f := (·.var)) (Array.mem_toList_iff.mpr hd)
    rw [hany, he] at hmem
    exact absurd hmem (by decide)

end Lowering

end SingleAssignment
