import SingleAssignment.Proofs.Anchors
import SingleAssignment.Proofs.Effects

/-!
# How blocks are left

Lowering a statement leaves the blocks behind it as they stay (`Onward`): a block goes on in its
only child, or it ends with a branch that waits, and its edges agree with that branch (`Exits`). The
effects of the statement are told block after block. What is given the value zero is told by a
warning, and what is merged at a join was assigned in all that is open around it (`Want.told`).
-/

namespace SingleAssignment.Builder

open Code List

/-! ## Exits -/

/-- A block ends with a branch that waits, and its edges agree with it: a jump leads to the only
child, a conditional branch to the second of two. -/
inductive Leaves (s : State) (b : BlockId) (d : Deferral) : Prop
  | jump {l : List (InstId × Opcode)} (hacts : s.acts b = l ++ [(d.inst, .bra)])
      (hside : d.side = .x) (hchildren : s.view.children b = [d.target])
  | branch {l : List (InstId × Opcode)} {op : Opcode} {f : BlockId}
      (hacts : s.acts b = l ++ [(d.inst, op)]) (hop : op.isConditional = true) (hside : d.side = .y)
      (hchildren : s.view.children b = [f, d.target])

/-- How a block is left: it goes on in its only child, or it ends with a branch that waits. -/
inductive Exits (s : State) (b : BlockId) : Prop
  | falls {t : BlockId} (hacts : ∀ a ∈ s.acts b, a.2.isTerminator = false)
      (hchildren : s.view.children b = [t])
  | waits {d : Deferral} (hd : d ∈ s.deferrals.toList) (h : Leaves s b d)

section

variable {s t : State} {b : BlockId} {d : Deferral}

theorem Leaves.congr (h : Leaves s b d) (hacts : t.acts b = s.acts b)
    (hchildren : t.view.children b = s.view.children b) : Leaves t b d := by
  cases h with
  | jump h hside hc => exact .jump (hacts.trans h) hside (hchildren.trans hc)
  | branch h hop hside hc => exact .branch (hacts.trans h) hop hside (hchildren.trans hc)

theorem Exits.congr (h : Exits s b) (hacts : t.acts b = s.acts b)
    (hchildren : t.view.children b = s.view.children b)
    (hkept : ∀ d ∈ s.deferrals.toList, d ∈ t.deferrals.toList) : Exits t b := by
  cases h with
  | falls h hc => exact .falls (hacts ▸ h) (hchildren.trans hc)
  | waits hd h => exact .waits (hkept _ hd) (h.congr hacts hchildren)

theorem State.Open.acts (h : s.Open b) : ∀ a ∈ s.acts b, a.2.isTerminator = false := by
  intro a ha
  obtain ⟨x, hx, hact⟩ := mem_filterMap.mp ha
  simpa [isEnd, hact] using h x hx

/-- An effect of a block is an active instruction of it. -/
theorem Timelines.inst?_of_mem_acts (hs : Timelines s) {id : InstId} {op : Opcode}
    (h : (id, op) ∈ s.acts b) :
    ∃ i, s.inst? id = some i ∧ i.op = op ∧ i.block = b ∧ i.active = true := by
  obtain ⟨x, hx, hact⟩ := mem_filterMap.mp h
  cases x with
  | mark v => cases hact
  | inst id' =>
    obtain ⟨i, hi, hblock⟩ := hs.owner hx
    simp only [State.act?, hi, Option.bind_some] at hact
    split at hact
    · rename_i hcond
      cases hact
      exact ⟨i, hi, rfl, hblock, (Bool.and_eq_true_iff.mp hcond).2⟩
    · cases hact

/-- A branch that waits is known by its block, and so is what it waits for. -/
theorem Leaves.eq {b' : BlockId} {d' : Deferral} (hs : Timelines s) (h : Leaves s b d)
    (h' : Leaves s b' d') (hinst : d.inst = d'.inst) : d = d' := by
  have heq : d.side = d'.side → d.target = d'.target → d = d' := fun hside htarget => by
    cases d
    cases d'
    simp_all
  have last : ∀ {b l op} {d : Deferral}, s.acts b = l ++ [(d.inst, op)] →
      ∃ i, s.inst? d.inst = some i ∧ i.op = op ∧ i.block = b := by
    intro b l op d hacts
    obtain ⟨i, hi, hop, hblock, -⟩ := hs.inst?_of_mem_acts
      (hacts ▸ mem_append_right _ (mem_singleton_self _))
    exact ⟨i, hi, hop, hblock⟩
  cases h with
  | jump hacts hside hchildren =>
    obtain ⟨i, hi, hop, rfl⟩ := last hacts
    cases h' with
    | jump hacts' hside' hchildren' =>
      obtain ⟨i', hi', -, rfl⟩ := last hacts'
      rw [← hinst, hi] at hi'
      cases hi'
      exact heq (hside.trans hside'.symm) (singleton_inj.mp (hchildren.symm.trans hchildren'))
    | branch hacts' hcond hside' hchildren' =>
      obtain ⟨i', hi', hop', rfl⟩ := last hacts'
      rw [← hinst, hi] at hi'
      cases hi'
      rw [← hop', hop] at hcond
      cases hcond
  | branch hacts hcond hside hchildren =>
    obtain ⟨i, hi, hop, rfl⟩ := last hacts
    cases h' with
    | jump hacts' hside' hchildren' =>
      obtain ⟨i', hi', hop', rfl⟩ := last hacts'
      rw [← hinst, hi] at hi'
      cases hi'
      rw [← hop, hop'] at hcond
      cases hcond
    | branch hacts' hcond' hside' hchildren' =>
      obtain ⟨i', hi', -, rfl⟩ := last hacts'
      rw [← hinst, hi] at hi'
      cases hi'
      have hpair := hchildren.symm.trans hchildren'
      exact heq (hside.trans hside'.symm) (by simpa using (List.cons.inj hpair).2)

end

/-! ## Told steps -/

/-- What a statement asks for: values zero that a warning tells of, and joins from the `n`-th block
on, where variables are merged that were assigned in all that is open around it. -/
def Want.told (n : Nat) (cs : List JoinContext) : Want → Prop
  | .zero cause _ _ => cause.isSome
  | .mark _ _ => True
  | .join j name => n ≤ j ∧ ∀ c ∈ cs, name ∈ c.touched
  | .scope => False

/-- The same, where constructs may be opened and closed. -/
def Want.scoped (n : Nat) (cs : List JoinContext) (a : Want) : Prop :=
  a = .scope ∨ a.told n cs

theorem Want.told_of_read {n : Nat} {cs : List JoinContext} {a : Want} (h : a.read) :
    a.told n cs := by
  cases a with
  | zero => exact h
  | mark => exact h.elim
  | join => exact h.elim
  | scope => exact h.elim

theorem Want.scoped.mono {n n' : Nat} {cs ds : List JoinContext} {a : Want}
    (h : a.scoped n cs) (hn : n' ≤ n) (hmem : ∀ name, (∀ c ∈ cs, name ∈ c.touched) → ∀ c ∈ ds,
      name ∈ c.touched) : a.scoped n' ds := by
  rcases h with h | h
  · exact .inl h
  · cases a with
    | zero => exact .inr h
    | mark => exact .inr trivial
    | join => exact .inr ⟨Int.le_trans (Int.ofNat_le.mpr hn) h.1, hmem _ h.2⟩
    | scope => exact .inl rfl

/-- Steps with the given effects, block after block, in the blocks from `lo` to `hi`. -/
def Recounts (F : BlockId) (W : Want → Prop) (lo hi : BlockId) (ops : List Opcode) (s t : State) :
    Prop :=
  ∃ l : List (BlockId × InstId × Opcode), l.map (·.2.2) = ops ∧ l.Pairwise (fun a b => a.1 ≤ b.1) ∧
    (∀ a ∈ l, lo ≤ a.1 ∧ a.1 ≤ hi) ∧ Steps F W l s t

namespace Recounts

variable {F F' lo lo' hi hi' b : BlockId} {W W' : Want → Prop} {ops ops' : List Opcode}
    {s t u : State}

theorem of_silent (h : Steps F W [] s t) : Recounts F W lo hi [] s t :=
  ⟨[], rfl, .nil, fun _ ha => (by cases ha), h⟩

theorem here {l : List (InstId × Opcode)} (h : Steps F W (l.map fun a => (b, a)) s t) :
    Recounts F W b b (l.map (·.2)) s t := by
  refine ⟨_, by rw [map_map]; rfl, ?_, fun a ha => ?_, h⟩
  · rw [pairwise_map]
    exact pairwise_of_forall fun _ _ => Int.le_refl b
  · obtain ⟨a', -, rfl⟩ := mem_map.mp ha
    exact ⟨Int.le_refl _, Int.le_refl _⟩

theorem trans (h : Recounts F W lo hi ops s t) (h' : Recounts F W lo' hi' ops' t u) (hlo : lo ≤ lo')
    (hhi : hi ≤ hi') (hmid : hi ≤ lo') : Recounts F W lo hi' (ops ++ ops') s u := by
  obtain ⟨l, rfl, hsorted, hbounds, hsteps⟩ := h
  obtain ⟨l', rfl, hsorted', hbounds', hsteps'⟩ := h'
  refine ⟨l ++ l', map_append, ?_, fun a ha => ?_, hsteps.trans hsteps'⟩
  · exact pairwise_append.mpr ⟨hsorted, hsorted', fun a ha a' ha' =>
      Int.le_trans (Int.le_trans (hbounds a ha).2 hmid) (hbounds' a' ha').1⟩
  · rcases mem_append.mp ha with ha | ha
    · exact ⟨(hbounds a ha).1, Int.le_trans (hbounds a ha).2 hhi⟩
    · exact ⟨Int.le_trans hlo (hbounds' a ha).1, (hbounds' a ha).2⟩

theorem mono (h : Recounts F W lo hi ops s t) (hF : F' ≤ F) (hW : ∀ a, W a → W' a) (hlo : lo' ≤ lo)
    (hhi : hi ≤ hi') : Recounts F' W' lo' hi' ops s t := by
  obtain ⟨l, hl, hsorted, hbounds, hsteps⟩ := h
  exact ⟨l, hl, hsorted, fun a ha => ⟨Int.le_trans hlo (hbounds a ha).1, Int.le_trans
    (hbounds a ha).2 hhi⟩, hsteps.mono hF hW⟩

/-- Other blocks keep their effects. -/
theorem acts (h : Recounts F W lo hi ops s t) (hs : Timelines s) (hb : b < lo ∨ hi < b) :
    t.acts b = s.acts b := by
  obtain ⟨l, -, -, hbounds, hsteps⟩ := h
  have hnone : l.filter (·.1 = b) = [] := filter_eq_nil_iff.mpr fun a ha => by
    have := hbounds a ha
    simp only [decide_eq_true_eq]
    rintro rfl
    rcases hb with hb | hb
    · exact absurd hb (Int.not_lt.mpr this.1)
    · exact absurd hb (Int.not_lt.mpr this.2)
  rw [(hsteps.logged hs).acts, hnone]
  exact append_nil _

end Recounts

/-! ## Blocks -/

/-- A block was made that is entered from the given blocks. -/
structure Built (s : State) (ps : List BlockId) (r : BlockId × State) : Prop where
  id : r.1 = s.view.size
  size : r.2.view.size = s.view.size + 1
  steps : ∀ {F W}, Steps F W [] s r.2
  children : ∀ b, r.2.view.children b = if b ∈ ps then s.view.children b ++
    [r.1] else s.view.children b
  childless : r.2.view.children r.1 = []
  opened : r.2.Open r.1
  contexts : r.2.contexts = s.contexts
  deferrals : r.2.deferrals = s.deferrals

theorem State.size_addBlock (s : State) (d : BlockDraft) :
    (s.addBlock d).2.view.size = s.view.size + 1 := by
  have hlinks : ∀ (c : BlockId) (ps : List BlockId) (t : State),
      (ps.foldl (fun s p => s.link p c) t).view.size = t.view.size := by
    intro c ps
    induction ps with
    | nil => exact fun _ => rfl
    | cons p ps ih => exact fun t => (ih _).trans (by dsimp only; rw [view_link]; rfl)
  exact (hlinks _ _ _).trans (Array.size_push _)

theorem State.deferrals_addBlock (s : State) (d : BlockDraft) :
    (s.addBlock d).2.deferrals = s.deferrals := by
  have hlinks : ∀ (c : BlockId) (ps : List BlockId) (t : State),
      (ps.foldl (fun s p => s.link p c) t).deferrals = t.deferrals := by
    intro c ps
    induction ps with
    | nil => exact fun _ => rfl
    | cons p ps ih =>
      exact fun t => (ih _).trans (congrArg (·.2.2.1) (frame_link (s := t) (p := p) (c := c)))
  exact hlinks _ _ _

theorem State.deferrals_defer (s : State) (id : InstId) (side : Side) (target : BlockId) :
    (s.defer id side target).deferrals = s.deferrals.push ⟨id, side, target⟩ :=
  congrArg (fun f : _ × _ × Array Deferral × _ => f.2.2.1.push ⟨id, side, target⟩)
    (frame_modifyInst s id _)

theorem Laid.built {floor : BlockId} {s : State} (h : Laid floor s) {d : BlockDraft}
    (hps : ∀ q ∈ d.parents, (s.view.graph q).isSome) (hnodup : d.parents.Nodup) :
    Built s d.parents (s.addBlock d) := by
  have hg := h.layout.graph
  have hfresh : s.view.graph s.view.size = none := hg.size_not
  have hchildren := (h.edges_addBlock hps hnodup).1
  have hsteps : ∀ {F W}, Steps F W [] s (s.addBlock d).2 := Steps.addBlock d
  refine ⟨rfl, s.size_addBlock d, hsteps, hchildren, ?_, ?_, congrArg Prod.fst
    (s.ledger_addBlock d), s.deferrals_addBlock d⟩
  · have hnone : (s.view.size : BlockId) ∉ d.parents := fun hmem => by
      have := hps _ hmem
      rw [hfresh] at this
      cases this
    have hself : (s.addBlock d).2.view.children s.view.size = [] := by
      rw [hchildren, if_neg hnone, View.children, hfresh]
      rfl
    exact hself
  · have hlog := (hsteps (F := 0) (W := fun _ => True)).logged h.timelines
    have hnone : s.timelineOf s.view.size = [] := by
      rw [State.timelineOf, show s.block? s.view.size = none from s.block?_size]
      rfl
    refine hlog.opened (fun x hx => ?_) fun a ha => (by cases ha)
    rw [show s.timelineOf (s.addBlock d).1 = [] from hnone] at hx
    cases hx

theorem Laid.built_below {floor p : BlockId} {s : State} {d : BlockDraft} {r : BlockId × State}
    (h : Laid floor s) (hps : d.parents = [p]) (hp : (s.view.graph p).isSome)
    (hr : r = s.addBlock d) : Built s [p] r := by
  rw [hr, ← hps]
  refine h.built (fun q hq => ?_) (by simp [hps])
  rw [hps, mem_singleton] at hq
  exact hq ▸ hp

end SingleAssignment.Builder

namespace SingleAssignment.Lowering

open Code Builder Source List Builder.State

/-! ## Statements -/

/-- What holds of the state while statements are lowered: only the first block with code is entered
from the block in front of it, versions name what was issued, instructions stand in blocks that are
there, and what is assigned in an open construct is assigned in those around it. -/
structure Steady (F : BlockId) (w : Walk) : Prop where
  ready : Ready F w
  gate : w.builder.view.children entryBlock = [startBlock]
  issued : w.builder.AllIssued
  recorded : w.builder.AllRecorded
  housed : w.builder.Housed
  paved : w.builder.Paved
  nested : w.builder.Nested

/-- A statement can be lowered: the current block has not ended and leads nowhere. -/
structure CanLower (F : BlockId) (w : Walk) : Prop extends Steady F w where
  opened : w.builder.Open w.current
  childless : w.builder.view.children w.current = []

/-- What was done from `w` on amid `k` constructs that are still open: code with the given effects
was added, and all blocks behind the current one are left as they stay, but for those of `P`. -/
structure Amid (k : Nat) (P : List BlockId) (w w' : Walk) (ops : List Opcode) : Prop where
  current : w.current ≤ w'.current
  size : w.builder.view.size ≤ w'.builder.view.size
  wider : Wider w.builder.contexts (w'.builder.contexts.drop k)
  tells : Recounts w.current (Want.scoped w.builder.view.size (w'.builder.contexts.drop k))
    w.current w'.current ops w.builder w'.builder
  exits : ∀ b, w.current ≤ b → b < w'.current → b ∉ P → Exits w'.builder b
  kept : ∀ d ∈ w.builder.deferrals.toList, d ∈ w'.builder.deferrals.toList
  waits : ∀ d ∈ w'.builder.deferrals.toList, d ∈ w.builder.deferrals.toList ∨
    ∃ b, w.current ≤ b ∧ b < w'.current ∧ b ∉ P ∧ Leaves w'.builder b d

/-- What a statement with the given effects has done. -/
structure Onward (w w' : Walk) (ops : List Opcode) : Prop extends Amid 0 [] w w' ops where
  opened : w'.builder.Open w'.current
  childless : w'.builder.view.children w'.current = []

section

variable {F F' : BlockId} {W : Want → Prop} {w w' w'' : Walk} {ops ops' : List Opcode}
    {ms ns : List Moment}

theorem Steady.rooted (h : Steady F w) {b : BlockId} (hb : (w.builder.view.graph b).isSome) :
    w.builder.Rooted b :=
  h.ready.sound.rooted h.gate hb

theorem Steady.timelines (h : Steady F w) : Timelines w.builder :=
  h.ready.sound.laid.timelines

/-- Steps keep what holds while statements are lowered. -/
theorem Steady.go {l : List (BlockId × InstId × Opcode)} {G : BlockId} {v : Walk} (h : Steady F w)
    (hsteps : Steps G W l w.builder v.builder) (hr : Ready F' v)
    (hgate : v.builder.view.children entryBlock = w.builder.view.children entryBlock) :
    Steady F' v :=
  ⟨hr, hgate.trans h.gate, hsteps.allIssued h.timelines h.issued, hsteps.allRecorded h.timelines
    h.issued h.recorded, hsteps.housed h.timelines h.housed, hsteps.paved h.timelines h.paved,
    hsteps.nested h.nested⟩

theorem CanLower.canAdd (h : CanLower F w) : CanAdd F w :=
  ⟨h.ready, h.rooted h.ready.isSome_current, h.opened, h.issued⟩

namespace Amid

variable {k k' : Nat} {P P' : List BlockId}

theorem refl (w : Walk) : Amid 0 [] w w [] :=
  ⟨Int.le_refl _, Nat.le_refl _, Widens.of_eq rfl, .of_silent .refl, fun _ hb hb' => absurd hb'
    (Int.not_lt.mpr hb), fun _ hd => hd, fun _ hd => .inl hd⟩

/-- More is done: the blocks that were left keep their edges, and those that are now left in a known
way are named. -/
theorem next {v : Walk} {n : Nat} {Q : List BlockId} (h : Amid k P w w' ops)
    (hs : Timelines w'.builder) (hcur : w'.current ≤ v.current)
    (hsize : w'.builder.view.size ≤ v.builder.view.size)
    (hwider : Wider (w'.builder.contexts.drop k) (v.builder.contexts.drop n))
    (htells : Recounts w.current (Want.scoped w.builder.view.size (v.builder.contexts.drop n))
      w'.current v.current ops' w'.builder v.builder)
    (hchildren : ∀ b, w.current ≤ b → b < w'.current → b ∉ P →
      v.builder.view.children b = w'.builder.view.children b)
    (hP : ∀ b ∈ Q, b < w'.current → b ∈ P)
    (hexits : ∀ b, w.current ≤ b → b < v.current → b ∉ Q → w'.current ≤ b ∨ b ∈ P →
      Exits v.builder b)
    (hkept : ∀ d ∈ w'.builder.deferrals.toList, d ∈ v.builder.deferrals.toList)
    (hwaits : ∀ d ∈ v.builder.deferrals.toList, d ∈ w'.builder.deferrals.toList ∨
      ∃ b, w.current ≤ b ∧ b < v.current ∧ b ∉ Q ∧ Leaves v.builder b d) : Amid n Q w v
        (ops ++ ops') := by
  have hacts : ∀ b, b < w'.current → v.builder.acts b = w'.builder.acts b :=
    fun b hb => htells.acts hs (.inl hb)
  refine ⟨Int.le_trans h.current hcur, Nat.le_trans h.size hsize, h.wider.trans hwider, ?_,
    fun b hb hb' hPb => ?_, fun d hd => hkept d (h.kept d hd), fun d hd => ?_⟩
  · have hfirst := h.tells.mono (Int.le_refl _) (fun a ha => ha.mono (Nat.le_refl _)
      fun _ => hwider.mem) (Int.le_refl _) (Int.le_refl _)
    exact hfirst.trans htells h.current hcur (Int.le_refl _)
  · by_cases hnew : w'.current ≤ b ∨ b ∈ P
    · exact hexits b hb hb' hPb hnew
    · obtain ⟨hlt, hPb⟩ := not_or.mp hnew
      have hlt := Int.not_le.mp hlt
      exact (h.exits b hb hlt hPb).congr (hacts b hlt) (hchildren b hb hlt hPb) hkept
  · rcases hwaits d hd with hd | hl
    · rcases h.waits d hd with hd | ⟨b, hb, hb', hPb, hl⟩
      · exact .inl hd
      · exact .inr ⟨b, hb, Int.lt_of_lt_of_le hb' hcur, fun hmem => hPb (hP b hmem hb'),
          hl.congr (hacts b hb') (hchildren b hb hb' hPb)⟩
    · exact .inr hl

/-- What is known how it is left does not wait any more. -/
theorem settle (h : Amid k P w w' ops) (hP' : ∀ b ∈ P', b ∈ P)
    (hexits : ∀ b ∈ P, b ∉ P' → Exits w'.builder b) : Amid k P' w w' ops := by
  refine ⟨h.current, h.size, h.wider, h.tells, fun b hb hb' hPb => ?_, h.kept, fun d hd => ?_⟩
  · by_cases hmem : b ∈ P
    · exact hexits b hmem hPb
    · exact h.exits b hb hb' hmem
  · rcases h.waits d hd with hd | ⟨b, hb, hb', hPb, hl⟩
    · exact .inl hd
    · exact .inr ⟨b, hb, hb', fun hmem => hPb (hP' b hmem), hl⟩

/-- What is done from a later state on. -/
theorem trans (h : Amid k P w w' ops) (h' : Amid 0 P' w' w'' ops') (hs : Timelines w'.builder)
    (hchildren : ∀ b, b < w'.current → w''.builder.view.children b = w'.builder.view.children b)
    (hP : ∀ b ∈ P, b < w'.current) (hP' : ∀ b ∈ P', w'.current ≤ b) : Amid k (P ++ P') w w''
    (ops ++ ops') := by
  have htells := h'.tells.mono h.current (fun a ha => ha.mono h.size
    fun _ hall c hc => hall c (mem_of_mem_drop (i := k) hc)) (Int.le_refl _) (Int.le_refl _)
  refine h.next hs h'.current h'.size (forall₂_drop k h'.wider) htells
    (fun b _ hb _ => hchildren b hb) (fun b hb hlt => ?_) (fun b hb hb' hPb hnew => ?_) h'.kept
    fun d hd => ?_
  · exact (mem_append.mp hb).resolve_right fun hmem => Int.not_lt.mpr (hP' b hmem) hlt
  · rw [mem_append, not_or] at hPb
    exact h'.exits b (hnew.resolve_right hPb.1) hb' hPb.2
  · rcases h'.waits d hd with hd | ⟨b, hb, hb', hPb, hl⟩
    · exact .inl hd
    · refine .inr ⟨b, Int.le_trans h.current hb, hb', fun hmem => ?_, hl⟩
      exact (mem_append.mp hmem).elim (fun hmem => Int.not_lt.mpr hb (hP b hmem)) hPb

/-- A part of a construct is done. -/
theorem part (h : Amid k P w w' ops) (h' : Onward w' w'' ops') (hs : Timelines w'.builder)
    (he' : Extends F w' w'' ns) (hP : ∀ b ∈ P, b < w'.current) : Amid k P w w'' (ops ++ ops') := by
  have hall := h.trans h'.toAmid hs he'.spans.children hP fun _ hb => (by cases hb)
  rwa [append_nil] at hall

end Amid

/-- Wherever a part can be lowered, lowering it emits the branches and side effects `ops`. -/
abbrev Advancing (part : Lower Unit) (ops : List Opcode) : Prop :=
  ∀ {F w}, CanLower F w → Yields part w fun _ w' => Onward w w' ops

namespace Onward

theorem canLower (h : Onward w w' ops) (hp : CanLower F w) (he : Extends F w w' ms) :
    CanLower F w' := by
  obtain ⟨l, -, -, -, hsteps⟩ := h.tells
  exact ⟨hp.go hsteps he.ready (he.spans.children _ hp.ready.entry_lt), h.opened, h.childless⟩

/-- A step that stays in the current block. -/
theorem here {l : List (InstId × Opcode)} (hcur : w'.current = w.current)
    (hopen : w'.builder.Open w'.current) (hgraph : w'.builder.view.graph = w.builder.view.graph)
    (hsize : w'.builder.view.size = w.builder.view.size) (hp : CanLower F w)
    (hsteps : Steps w.current W (l.map fun a => (w.current, a)) w.builder w'.builder)
    (hW : ∀ a, W a → a.told w.builder.view.size w'.builder.contexts)
    (hdef : w'.builder.deferrals = w.builder.deferrals) : Onward w w' (l.map (·.2)) := by
  have hwidens := hsteps.widens fun hscope => hW _ hscope
  refine ⟨(Amid.refl w).next hp.timelines (Int.le_of_eq hcur.symm) (Nat.le_of_eq hsize.symm) hwidens
    ?_ (fun b _ _ _ => congrFun (View.children_of_graph hgraph) b) (fun _ hb => by cases hb)
    (fun b hb hb' _ _ => ?_) (fun d hd => hdef ▸ hd) (fun d hd => .inl (hdef ▸ hd)), hopen, ?_⟩
  · exact (Recounts.here hsteps).mono (Int.le_refl _) (fun a ha => .inr (hW a ha)) (Int.le_refl _)
      (Int.le_of_eq hcur.symm)
  · rw [hcur] at hb'
    exact absurd hb' (Int.not_lt.mpr hb)
  · rw [View.children_of_graph hgraph, hcur]
    exact hp.childless

theorem trans (h : Onward w w' ops) (h' : Onward w' w'' ops') (hp : CanLower F w')
    (he' : Extends F w' w'' ns) : Onward w w'' (ops ++ ops') :=
  ⟨h.toAmid.part h' hp.timelines he' fun _ hb => (by cases hb), h'.opened, h'.childless⟩

end Onward

theorem Emits.onward (h : Emits w w' ops) (hp : CanLower F w) (hc : Computes F w w' ms) :
    Onward w w' ops := by
  obtain ⟨l, rfl, hsteps⟩ := h.steps
  exact .here h.current h.opened hc.works.graph hc.works.size hp hsteps (fun _ => Want.told_of_read)
    (congrArg (·.2.2.1) hc.works.frame)

/-! ## Opening and closing -/

/-- A construct was opened: a block is made below the current one. -/
structure Begins (F : BlockId) (kind : JoinKind) (w : Walk) (r : BlockId × State) : Prop where
  opens : Opens F kind w ⟨r.2, r.1⟩
  canLower : CanLower (floorAt F w.builder) ⟨r.2, r.1⟩
  steps : ∀ {G W}, W .scope → Steps G W [] w.builder r.2
  children : ∀ b, r.2.view.children b =
    if b = w.current then w.builder.view.children b ++ [r.1] else w.builder.view.children b
  contexts : ∃ c, r.2.contexts = c :: w.builder.contexts
  deferrals : r.2.deferrals = w.builder.deferrals

theorem Steady.begins (h : Steady F w) (kind : JoinKind) {d : BlockDraft}
    (hd : d.dominators = w.builder.dominatorsOf w.current) (hps : d.parents = [w.current])
    (hj : d.join = .loop → kind = .loop) {r : BlockId × State}
    (hr : r = (w.builder.openJoin kind).addBlock d) : Begins F kind w r := by
  obtain ⟨hopen, -⟩ := opens_block h.ready kind hd hps hj hr
  obtain ⟨hlaid, -, -, hgraph, -⟩ := h.ready.sound.laid.openJoin kind
  have hb : Built (w.builder.openJoin kind) [w.current] r :=
    hlaid.built_below hps (by rw [hgraph]; exact h.ready.isSome_current) hr
  have hsteps : ∀ {G W}, W .scope → Steps G W [] w.builder r.2 :=
    fun hw => (Steps.openJoin hw kind).trans hb.steps
  refine ⟨hopen, ⟨h.go (v := ⟨r.2, r.1⟩) (hsteps (G := 0) (W := fun _ => True) trivial) hopen.ready
    (hopen.spans.children _ h.ready.entry_lt), hb.opened, hb.childless⟩, hsteps, fun b => ?_,
    ⟨_, hb.contexts⟩, hb.deferrals⟩
  rw [hb.children, View.children_of_graph hgraph]
  simp only [mem_singleton]

/-- A construct was closed in state `s`, where variables can be merged at the block `j`. -/
structure Gathered (w : Walk) (j : BlockId) (s : State) : Prop where
  steps : ∀ {G W}, W .scope → Steps G W [] w.builder s
  issued : s.AllIssued
  start : startBlock < j
  root : ∀ p ∈ [(s.joinParents j).1, (s.joinParents j).2], s.Rooted p

theorem Gathered.merging {j : BlockId} {s : State} {names : List String} (h : Gathered w j s)
    (hvalid : (s.view.graph j).isSome) (hzero : ∀ name ∈ names, ∀ p,
      W (.zero (some .partialJoin) p name))
    (hmark : ∀ name ∈ names, W (.mark j name)) (hjoin : ∀ name ∈ names, W (.join j name)) :
    Merging j W j names s :=
  ⟨hvalid, Int.le_refl _, h.start, h.root, hzero, hmark, hjoin⟩

/-- An `if` was closed: a join is made that is entered from the given blocks, a branch waits for it,
and variables are merged there. -/
structure Rejoins (ps : List BlockId) (id : InstId) (side : Side) (w w' : Walk) : Prop where
  current : w'.current = w.builder.view.size
  size : w'.builder.view.size = w.builder.view.size + 1
  steps : Steps w'.current (Want.scoped w.builder.view.size w'.builder.contexts) []
    w.builder w'.builder
  contexts : ∃ c rest, w.builder.contexts = c :: rest ∧ Wider rest w'.builder.contexts
  children : ∀ b, w'.builder.view.children b =
    if b ∈ ps then w.builder.view.children b ++ [w'.current] else w.builder.view.children b
  childless : w'.builder.view.children w'.current = []
  opened : w'.builder.Open w'.current
  deferrals : w'.builder.deferrals = w.builder.deferrals.push ⟨id, side, w'.current⟩

section

variable {floor : BlockId} {d : BlockDraft} {id : InstId} {side : Side} {s : State}
    {c : JoinContext}

/-- The branch waits for the join, and the construct is closed. -/
theorem ClosesIf.gathered (h : ClosesIf floor d id side w s c w') (hst : Steady F w)
    (hps : ∀ q ∈ d.parents, (w.builder.view.graph q).isSome ∧ entryBlock < q)
    (hnodup : d.parents.Nodup) : Gathered w w'.current s := by
  have hbuilt := hst.ready.sound.laid.built (fun q hq => (hps q hq).1) hnodup
  obtain ⟨i, hi, hside⟩ := h.branch
  obtain ⟨rest, hcontexts, hs⟩ := h.popped
  have hdefer : ∀ {G W}, Steps G W [] (w.builder.addBlock d).2
    ((w.builder.addBlock d).2.defer id side w'.current) :=
    Steps.defer hi hside _
  have hctx : ((w.builder.addBlock d).2.defer id side w'.current).contexts = c :: rest :=
    (congrArg Prod.fst (ledger_modifyInst _ id _)).trans hcontexts
  have hpop : ∀ {G W}, W .scope → Steps G W [] w.builder s := fun hw =>
    hs ▸ (hbuilt.steps.andThen hdefer).andThen (.closeJoin hw hctx)
  have hgate : s.view.children entryBlock = [startBlock] := by
    rw [h.view, hbuilt.children, if_neg fun hq => Int.lt_irrefl _ (hps _ hq).2]
    exact hst.gate
  refine ⟨hpop, (hpop (G := 0) (W := fun _ => True) trivial).allIssued hst.timelines hst.issued, ?_,
    fun p hp => ?_⟩
  · have hcur : w'.current = w.builder.view.size := h.current.trans hbuilt.id
    have := hst.ready.start_le
    have := hst.ready.newest
    lia
  · rcases mem_joinParents hp with rfl | hp
    · exact fun hne => absurd rfl hne
    · exact h.sound.rooted hgate (h.sound.laid.layout.graph.parent hp).1

/-- Variables are merged at the join, and the branches are resolved. -/
theorem ClosesIf.merges (h : ClosesIf floor d id side w s c w') (hg : Gathered w w'.current s)
    (hzero : ∀ name ∈ c.touched, ∀ p, W (.zero (some .partialJoin) p name))
    (hmark : ∀ name ∈ c.touched, W (.mark w'.current name))
    (hjoin : ∀ name ∈ c.touched, W (.join w'.current name)) :
    Steps w'.current W [] s w'.builder := by
  have hsound := h.sound.works (h.sound.laid.reconcileAll h.valid c.touched)
  have hmerge := (hg.merging h.valid hzero hmark hjoin).changes_reconcileAll h.sound.laid hg.issued
  exact h.builder ▸ (Steps.of_changes hmerge).andThen (.resolveBranches hsound.laid.timelines
    hsound.deferrals)

theorem ClosesIf.rejoins (h : ClosesIf floor d id side w s c w') (hst : Steady F w)
    (hps : ∀ q ∈ d.parents, (w.builder.view.graph q).isSome ∧ entryBlock < q)
    (hnodup : d.parents.Nodup) : Rejoins d.parents id side w w' := by
  have hbuilt := hst.ready.sound.laid.built (fun q hq => (hps q hq).1) hnodup
  have hg := h.gathered hst hps hnodup
  obtain ⟨i, hi, hside⟩ := h.branch
  obtain ⟨rest, hcontexts, hs⟩ := h.popped
  have hcur : w'.current = w.builder.view.size := h.current.trans hbuilt.id
  have hworks := h.sound.laid.reconcileAll h.valid c.touched
  have hsound := h.sound.works hworks
  have hbranches := hsound.laid.resolveBranches hsound.deferrals
  have hwider : Wider rest w'.builder.contexts := by
    have hwidens : Widens s w'.builder :=
      (h.merges (W := (· ≠ .scope)) hg (fun _ _ _ he => (by cases he))
      (fun _ _ he => (by cases he)) fun _ _ he => (by cases he)).widens fun hne => hne rfl
    rw [hs] at hwidens
    exact hwidens
  have hctx' : w.builder.contexts = c :: rest := hbuilt.contexts ▸ hcontexts
  have htouched : ∀ name ∈ c.touched, ∀ c' ∈ w'.builder.contexts, name ∈ c'.touched := by
    intro name hname
    have hnested := hst.nested
    rw [State.Nested, hctx', pairwise_cons] at hnested
    exact hwider.mem fun c' hc' => hnested.1 c' hc' name hname
  have hall : Steps w'.current (Want.scoped w.builder.view.size w'.builder.contexts) []
    s w'.builder :=
    h.merges hg (fun _ _ _ => .inr rfl) (fun _ _ => .inr trivial)
      fun name hname => .inr ⟨Int.le_of_eq hcur.symm, htouched name hname⟩
  have hgraph : w'.builder.view.graph = (w.builder.addBlock d).2.view.graph := by
    rw [h.builder, hbranches.graph, hworks.graph, h.view]
  have hchildren := View.children_of_graph hgraph
  have hframe : w'.builder.frame = s.frame := by rw [h.builder, hbranches.frame, hworks.frame]
  have hdeferrals : w'.builder.deferrals = s.deferrals := congrArg (·.2.2.1) hframe
  have hsize : w'.builder.view.size = w.builder.view.size + 1 := by
    rw [h.builder, hbranches.size, hworks.size, h.view, hbuilt.size]
  refine ⟨hcur, hsize, (hg.steps (.inl rfl)).andThen hall, ⟨c, rest, hctx', hwider⟩,
    fun b => ?_, ?_, ?_, ?_⟩
  · rw [hchildren, hbuilt.children, h.current]
  · rw [hchildren, h.current]
    exact hbuilt.childless
  · have hdefer : Steps w'.current (fun _ => True) [] (w.builder.addBlock d).2 _ :=
      Steps.defer hi hside w'.current
    have hctx : ((w.builder.addBlock d).2.defer id side w'.current).contexts = c :: rest :=
      (congrArg Prod.fst (ledger_modifyInst _ id _)).trans hcontexts
    have hsteps : Steps w'.current (fun _ => True) [] (w.builder.addBlock d).2 w'.builder :=
      (hdefer.andThen (hs ▸ .closeJoin trivial hctx)).andThen
        (h.merges hg (fun _ _ _ => trivial) (fun _ _ => trivial) fun _ _ => trivial)
    have ht := (hbuilt.steps (F := 0) (W := fun _ => True)).logged hst.timelines
    exact (hsteps.logged ht.timelines).opened (h.current ▸ hbuilt.opened) fun a ha => (by cases ha)
  · rw [hdeferrals, hs, ← hbuilt.deferrals]
    exact deferrals_defer _ id side w'.current

end

namespace Rejoins

variable {ps : List BlockId} {id : InstId} {side : Side} {b : BlockId} {d : Deferral}

theorem acts (h : Rejoins ps id side w w') (hs : Timelines w.builder) (b : BlockId) :
    w'.builder.acts b = w.builder.acts b := by
  rw [(h.steps.logged hs).acts]
  exact append_nil _

theorem mem_deferrals (h : Rejoins ps id side w w') :
    d ∈ w'.builder.deferrals.toList ↔ d ∈ w.builder.deferrals.toList ∨
      d = ⟨id, side, w'.current⟩ := by
  rw [h.deferrals, Array.toList_push, mem_append, mem_singleton]

end Rejoins

/-! ## Conditions -/

namespace EmitsLast

variable {id : InstId} {op : Opcode}

theorem tells (h : EmitsLast w w' ops id op) :
    Recounts w.current Want.read w.current w.current (ops ++ [op]) w.builder w'.builder := by
  obtain ⟨l, rfl, hsteps⟩ := h.steps
  have htells := Recounts.here hsteps
  rwa [map_append] at htells

/-- What ends a block is the last of its effects. -/
theorem acts (h : EmitsLast w w' ops id op) (hs : Timelines w.builder) :
    ∃ l, w'.builder.acts w.current = l ++ [(id, op)] := by
  obtain ⟨l, -, hsteps⟩ := h.steps
  refine ⟨w.builder.acts w.current ++ l, ?_⟩
  have hall : ∀ k : List (InstId × Opcode),
    ((k.map fun a => (w.current, a)).filter (·.1 = w.current)).map (·.2) = k := by
    intro k
    rw [filter_eq_self.mpr fun a ha => by
      obtain ⟨a', -, rfl⟩ := mem_map.mp ha
      exact decide_eq_true rfl]
    rw [map_map]
    exact map_id k
  rw [(hsteps.logged hs).acts, hall, append_assoc]

theorem widens (h : EmitsLast w w' ops id op) : Widens w.builder w'.builder := by
  obtain ⟨l, -, hsteps⟩ := h.steps
  exact hsteps.widens fun hscope => hscope

/-- Behind a branch the state is as steady as before. -/
theorem steady (h : EmitsLast w w' ops id op) (hst : Steady F w) (hc : Computes F w w' ms) :
    Steady F w' := by
  obtain ⟨l, -, hsteps⟩ := h.steps
  exact hst.go hsteps (hc.ready hst.ready) (congrFun (View.children_of_graph hc.works.graph) _)

end EmitsLast

/-! ## Constructs -/

namespace Amid

variable {k : Nat} {P ps : List BlockId} {id : InstId} {op : Opcode} {kind : JoinKind}
    {r : BlockId × State}

/-- A condition or a jump ends the current block. -/
theorem ends (h : Amid k P w w' ops) (hs : Timelines w'.builder) (he : EmitsLast w' w'' ops' id op)
    (hc : Computes F w' w'' ms) : Amid k P w w'' (ops ++ (ops' ++ [op])) := by
  have hdef : w''.builder.deferrals = w'.builder.deferrals := congrArg (·.2.2.1) hc.works.frame
  refine h.next hs (Int.le_of_eq hc.current.symm) (Nat.le_of_eq hc.works.size.symm)
    (forall₂_drop k he.widens) ?_ (fun b _ _ _ => congrFun (View.children_of_graph hc.works.graph)
    b) (fun b hb _ => hb) (fun b _ hb' hPb hnew => ?_) (fun d hd => hdef ▸ hd) fun d hd =>
    .inl (hdef ▸ hd)
  · exact he.tells.mono h.current (fun a ha => .inr (Want.told_of_read ha)) (Int.le_refl _)
      (Int.le_of_eq hc.current.symm)
  · rw [hc.current] at hb'
    exact absurd hb' (Int.not_lt.mpr (hnew.resolve_right hPb))

/-- A construct begins below the current block. -/
theorem begins (h : Amid k P w w' ops) (hst : Steady F w') (hb : Begins F kind w' r) :
    Amid (k + 1) (w'.current :: P) w ⟨r.2, r.1⟩ ops := by
  obtain ⟨c, hctx⟩ := hb.contexts
  have htop : r.1 = w'.current + 1 := hb.opens.current.trans hst.ready.newest.symm
  have hnext := h.next (v := ⟨r.2, r.1⟩) (Q := w'.current :: P) (n := k + 1) hst.timelines
    (by dsimp only; lia)
    hb.opens.spans.grows.size ?_ (.of_silent (hb.steps (.inl rfl))) ?_ ?_ ?_
    (fun d hd => hb.deferrals ▸ hd) fun d hd => .inl (hb.deferrals ▸ hd)
  · rwa [append_nil] at hnext
  · rw [hctx]
    exact .refl _
  · intro b _ hlt _
    rw [hb.children, if_neg (Int.ne_of_lt hlt)]
  · intro b hmem hlt
    exact (mem_cons.mp hmem).resolve_left (Int.ne_of_lt hlt)
  · intro b _ hlt hPb hnew
    rw [mem_cons, not_or] at hPb
    have hle := hnew.resolve_right hPb.2
    dsimp only at hlt
    exact absurd (show b = w'.current by lia) hPb.1

/-- A block is made, entered from blocks that are not yet left in a known way. -/
theorem built (h : Amid k P w w' ops) (hst : Steady F w') (hb : Built w'.builder ps r)
    (hps : ∀ b ∈ ps, b = w'.current ∨ b ∈ P) : Amid k (w'.current :: P) w ⟨r.2, r.1⟩ ops := by
  have htop : r.1 = w'.current + 1 := hb.id.trans hst.ready.newest.symm
  have hnext := h.next (v := ⟨r.2, r.1⟩) (Q := w'.current :: P) (n := k) hst.timelines
    (by dsimp only; lia)
    (hb.size ▸ Nat.le_succ _) (hb.contexts ▸ .refl _) (.of_silent hb.steps) ?_ ?_ ?_
    (fun d hd => hb.deferrals ▸ hd) fun d hd => .inl (hb.deferrals ▸ hd)
  · rwa [append_nil] at hnext
  · intro b _ hlt hPb
    rw [hb.children, if_neg]
    intro hmem
    exact (hps b hmem).elim (Int.ne_of_lt hlt) hPb
  · intro b hmem hlt
    exact (mem_cons.mp hmem).resolve_left (Int.ne_of_lt hlt)
  · intro b _ hlt hPb hnew
    rw [mem_cons, not_or] at hPb
    have hle := hnew.resolve_right hPb.2
    dsimp only at hlt
    exact absurd (show b = w'.current by lia) hPb.1

/-- A branch waits for its block, and so it is known how its own block is left. -/
theorem defer {P' : List BlockId} {b target : BlockId} {side : Side} {i : Instruction}
    (h : Amid k P w w' ops) (hst : Ready F w') (hP : ∀ c ∈ P, c = b ∨ c ∈ P')
    (hP' : ∀ c ∈ P', c ∈ P ∧ c ≠ b) (hi : w'.builder.inst? id = some i)
    (hside : i.isTarget side = true) (hl : Leaves w'.builder b ⟨id, side, target⟩)
    (hb : w.current ≤ b) (hb' : b < w'.current) :
    Amid k P' w { w' with builder := w'.builder.defer id side target } ops := by
  have hview := view_defer hi hside target
  have hctx := contexts_defer w'.builder id side target
  have hs := hst.sound.laid.timelines
  have hsteps : ∀ {G W}, Steps G W [] w'.builder (w'.builder.defer id side target) :=
    Steps.defer hi hside target
  have hacts : ∀ c, (w'.builder.defer id side target).acts c = w'.builder.acts c := fun c => by
    rw [((hsteps (G := 0) (W := fun _ => True)).logged hs).acts]
    exact append_nil _
  have hl' : Leaves (w'.builder.defer id side target) b ⟨id, side, target⟩ :=
    hl.congr (hacts b) (by rw [hview])
  have hmem : ∀ d, d ∈ (w'.builder.defer id side target).deferrals.toList ↔
      d ∈ w'.builder.deferrals.toList ∨ d = ⟨id, side, target⟩ := fun d => by
    rw [deferrals_defer, Array.toList_push, mem_append, mem_singleton]
  have hnext := h.next (v := { w' with builder := w'.builder.defer id side target })
    (Q := P') (n := k) hs (Int.le_refl _) (Nat.le_of_eq (by rw [hview])) (hctx ▸ .refl _)
    (.of_silent hsteps) (fun c _ _ _ => by rw [hview]) (fun c hc _ => (hP' c hc).1) ?_
    (fun d hd => (hmem d).mpr (.inl hd)) ?_
  · rwa [append_nil] at hnext
  · intro c hc hc' hPc hold
    rcases hold with hle | hold
    · exact absurd hc' (Int.not_lt.mpr hle)
    · rcases hP c hold with rfl | hold
      · exact .waits ((hmem _).mpr (.inr rfl)) hl'
      · exact absurd hold hPc
  · intro d hd
    rcases (hmem d).mp hd with hd | rfl
    · exact .inl hd
    · exact .inr ⟨b, hb, hb', fun hmem => (hP' b hmem).2 rfl, hl'⟩

/-- An `if` is closed, and the branch that ends one of its blocks waits for the join. -/
theorem rejoins {p : BlockId} {side : Side} (h : Amid 1 [p] w w' ops) (hst : CanLower F w')
    (hj : Rejoins ps id side w' w'') (hps : ∀ b, b ∈ ps ↔ b = w'.current ∨ b = p)
    (hp : w.current ≤ p) (hp' : p < w'.current)
    (hl : Leaves w''.builder p ⟨id, side, w''.current⟩) : Onward w w'' ops := by
  obtain ⟨c, rest, hctx, hwider⟩ := hj.contexts
  have hnew : w''.current = w'.current + 1 := hj.current.trans hst.ready.newest.symm
  have hnext := h.next (v := w'') (Q := []) (n := 0) hst.timelines (by lia)
    (hj.size ▸ Nat.le_succ _) ?_ (.of_silent (hj.steps.mono (Int.le_trans h.current (by lia))
    fun _ ha => ha.mono h.size fun _ hn => hn)) ?_ (fun _ hb => by cases hb) ?_
    (fun d hd => hj.mem_deferrals.mpr (.inl hd)) ?_
  · rw [append_nil] at hnext
    exact ⟨hnext, hj.opened, hj.childless⟩
  · rw [hctx]
    exact hwider
  · intro b _ hlt hPb
    rw [hj.children, if_neg]
    intro hmem
    exact ((hps b).mp hmem).elim (Int.ne_of_lt hlt) fun he => hPb (mem_singleton.mpr he)
  · intro b _ hlt _ hold
    rcases hold with hle | hPb
    · have hb : b = w'.current := by lia
      refine .falls (t := w''.current) ?_ ?_
      · rw [hj.acts hst.timelines, hb]
        exact hst.opened.acts
      · rw [hj.children, if_pos ((hps b).mpr (.inl hb)), hb, hst.childless]
        rfl
    · cases mem_singleton.mp hPb
      exact .waits (hj.mem_deferrals.mpr (.inr rfl)) hl
  · intro d hd
    rcases hj.mem_deferrals.mp hd with hd | rfl
    · exact .inl hd
    · exact .inr ⟨p, hp, by lia, by simp, hl⟩

end Amid

/-- The condition and the first part of an `if` are lowered, from `w₁` on in front of it. -/
structure FirstPart (F : BlockId) (kind : JoinKind) (w w₁ w₂ : Walk) (branch : InstId)
    (ops : List Opcode) :
    Prop where
  front : Steady F w₁
  inside : ∃ ms, Inside F kind w₁ w₂ ms
  current : w₁.current = w.current
  canLower : CanLower (floorAt F w₁.builder) w₂
  later : w₁.current < w₂.current
  amid : Amid 1 [w₁.current] w w₂ ops
  acts : ∃ l op, op.isConditional = true ∧ w₂.builder.acts w₁.current = l ++ [(branch, op)]
  child : ∃ top, w₂.builder.view.children w₁.current = [top]

theorem firstPart (scope : Scope) (cond : Relation) (kind : JoinKind) {thenPart : Lower Unit}
    {ms : Walk → List Moment} {branch : InstId} {w₁ w₂ : Walk} {r : BlockId × State}
    (h : CanLower F w) (hext : Extending thenPart ms) (hthen : Advancing thenPart ops)
    (hrel : lowerRelation scope cond w = .ok branch w₁)
    (hr : r = (w₁.builder.openJoin kind).addBlock
      { kind := .thenPart, dominators := w₁.builder.dominatorsOf w₁.current,
        parents := [w₁.current] })
    (hpart : thenPart ⟨r.2, r.1⟩ = .ok ⟨⟩ w₂) : FirstPart F kind w w₁ w₂ branch
    (cond.effects ++ ops) := by
  obtain ⟨op, hexit, hop, hcond⟩ := ends_lowerRelation scope cond h.canAdd _ _ hrel
  have hcomp := computes_lowerRelation scope cond h.ready _ _ hrel
  have hst₁ := hcond.steady h.toSteady hcomp
  have hb := hst₁.begins kind rfl rfl (by intro he; cases he) hr
  replace hext := hext hb.canLower.ready _ _ hpart
  replace hpart := hthen hb.canLower _ _ hpart
  have hcur : w₁.current = w.current := hcomp.current
  have htop : w₁.current < r.1 := by
    rw [show r.1 = w₁.current + 1 from hb.opens.current.trans hst₁.ready.newest.symm]
    exact Int.lt_succ _
  have hv : Steps 0 (fun _ => True) [] w₁.builder r.2 := hb.steps trivial
  refine ⟨hst₁, ⟨_, hb.opens.inside.extend hext hst₁.ready.newest⟩, hcur,
    hpart.canLower hb.canLower hext, Int.lt_of_lt_of_le htop hext.current, ?_, ?_, r.1, ?_⟩
  · have hall := (((Amid.refl w).ends h.timelines hcond hcomp).begins hst₁ hb).part hpart
      hb.canLower.timelines hext fun b hb => mem_singleton.mp hb ▸ htop
    rwa [nil_append, ← hexit] at hall
  · obtain ⟨l, hl⟩ := hcond.acts h.timelines
    refine ⟨l, op, hop, ?_⟩
    rw [hpart.tells.acts hb.canLower.timelines (.inl htop), (hv.logged hst₁.timelines).acts,
      filter_nil, map_nil, append_nil, hcur, hl]
  · rw [hext.spans.children _ htop, hb.children, if_pos rfl, View.children_of_graph
      hcomp.works.graph, hcur, h.childless]
    rfl

theorem FirstPart.valid {kind : JoinKind} {w₁ w₂ : Walk} {branch : InstId}
    (h : FirstPart F kind w w₁ w₂ branch ops) :
    (w₂.builder.view.graph w₁.current).isSome ∧
      w₂.builder.view.doms w₁.current = w₁.builder.dominatorsOf w₁.current := by
  obtain ⟨ms, hin⟩ := h.inside
  obtain ⟨hvalid, hdoms⟩ := hin.front h.front.ready
  exact ⟨hvalid, hdoms.trans (dominatorsOf_eq _ _).symm⟩

/-- An `if` without `else` has the effects of its condition and of its part. -/
theorem onward_lowerIfThen (scope : Scope) (cond : Relation) {thenPart : Lower Unit}
    {ms : Walk → List Moment} (h : CanLower F w) (hext : Extending thenPart ms)
    (hthen : Advancing thenPart ops) :
    Yields (lowerIfThen scope cond thenPart) w fun _ w' => Onward w w' (cond.effects ++ ops) := by
  refine .of_ok fun _ w' hw => ?_
  obtain ⟨branch, w₁, r, w₂, s, c, hrel, hr, hpart, hclose⟩ :=
    lowerIfThen_cases scope cond h.ready hext _ _ hw
  have hfirst := firstPart scope cond .ifThen h hext hthen hrel hr hpart
  have h₂ := hfirst.canLower
  have hj : Rejoins [w₂.current, w₁.current] branch .y w₂ w' := by
    refine hclose.rejoins h₂.toSteady (fun q hq => ?_) ?_
    · rcases mem_cons.mp hq with rfl | hq
      · exact ⟨h₂.ready.isSome_current, h₂.ready.entry_lt⟩
      · cases mem_singleton.mp hq
        exact ⟨hfirst.valid.1, hfirst.front.ready.entry_lt⟩
    · simpa using Int.ne_of_gt hfirst.later
  have hleaves : Leaves w'.builder w₁.current ⟨branch, .y, w'.current⟩ := by
    obtain ⟨l, op, hop, hl⟩ := hfirst.acts
    obtain ⟨top, hchild⟩ := hfirst.child
    refine .branch (l := l) (f := top) ((hj.acts h₂.timelines _).trans hl) hop rfl ?_
    rw [hj.children, if_pos (by simp), hchild]
    rfl
  exact hfirst.amid.rejoins h₂ hj (fun b => by simp) (Int.le_of_eq hfirst.current.symm)
    hfirst.later hleaves

/-- The second part of an `if` is entered: a jump ends the first part in `w₂`, and the branch in
front of the `if` waits for the new block. -/
structure Turns (F : BlockId) (w w₂ v : Walk) (bra : InstId) (ops : List Opcode) : Prop where
  canLower : CanLower F v
  later : w₂.current < v.current
  amid : Amid 1 [w₂.current] w v ops
  acts : ∃ l, v.builder.acts w₂.current = l ++ [(bra, .bra)]
  childless : v.builder.view.children w₂.current = []

theorem FirstPart.turns {w₁ w₂ w₃ : Walk} {branch : InstId} {bra : Value} {r : BlockId × State}
    {i : Instruction} (h : FirstPart F .ifElse w w₁ w₂ branch ops)
    (hemit : emitHere .bra {} {} w₂ = .ok bra w₃) (hr : r = w₃.builder.addBlock
      { kind := .elsePart, dominators := w₁.builder.dominatorsOf w₁.current,
        parents := [w₁.current] })
    (hi : r.2.inst? branch = some i) (hbranch : i.op.isBranch = true)
    (hready : Ready (floorAt F w₁.builder) ⟨r.2.defer branch .y r.1, r.1⟩) :
    Turns (floorAt F w₁.builder) w w₂ ⟨r.2.defer branch .y r.1, r.1⟩ bra.id (ops ++ [.bra]) := by
  have h₂ := h.canLower
  have hnone : w₂.builder.view.BoundedSource ({} : Value).src := boundedSource_absent _
  have hjump := (ends_emitHere h₂.canAdd .bra rfl _ _ hemit).1
  have hcomp := (computes_emitHere h₂.ready .bra (by decide) (by decide) (by decide) hnone
    hnone _ _ hemit).1
  have hst₃ := hjump.steady h₂.toSteady hcomp
  have hcur₃ : w₃.current = w₂.current := hcomp.current
  have hlater := h.later
  -- The new block is entered from the one in front.
  obtain ⟨ms, hinside⟩ := h.inside
  have hvalid : (w₃.builder.view.graph w₁.current).isSome := by
    rw [hcomp.works.graph]
    exact h.valid.1
  have hdoms : w₁.builder.dominatorsOf w₁.current = w₃.builder.view.doms w₁.current := by
    rw [View.doms_of_graph hcomp.works.graph, h.valid.2]
  have hbuilt : Built w₃.builder [w₁.current] r := hst₃.ready.sound.laid.built_below rfl hvalid hr
  have hready' : Ready _ ⟨r.2, r.1⟩ := (ready_addBlock hst₃.ready
    ((congrArg (·.2.2.2) hcomp.works.frame).trans hinside.kinds) hvalid hdoms rfl
    (by intro he; cases he) hr).1
  have hmade : Steps 0 (fun _ => True) [] w₃.builder r.2 := hbuilt.steps
  have htop : r.1 = w₃.current + 1 := hbuilt.id.trans hst₃.ready.newest.symm
  have hacts : ∀ b, r.2.acts b = w₃.builder.acts b := fun b => by
    rw [(hmade.logged hst₃.timelines).acts]
    exact append_nil _
  -- The branch there waits for it.
  have hside : i.isTarget .y = true := by simp [Instruction.isTarget, hbranch]
  have hview := view_defer hi hside r.1
  have hdefer : Steps 0 (fun _ => True) [] r.2 (r.2.defer branch .y r.1) := .defer hi hside _
  have hlog := hdefer.logged (hmade.logged hst₃.timelines).timelines
  have hleaves : Leaves r.2 w₁.current ⟨branch, .y, r.1⟩ := by
    obtain ⟨l, op, hop, hl⟩ := h.acts
    obtain ⟨top, hchild⟩ := h.child
    refine .branch (l := l) (f := top) ?_ hop rfl ?_
    · rw [hacts, hjump.tells.acts h₂.timelines (.inl hlater), hl]
    · rw [hbuilt.children, if_pos (by simp), View.children_of_graph hcomp.works.graph, hchild]
      rfl
  refine ⟨⟨hst₃.go (v := ⟨r.2.defer branch .y r.1, r.1⟩) (hmade.trans hdefer) hready ?_, ?_, ?_⟩,
    ?_, ?_, ?_, ?_⟩
  · rw [hview, hbuilt.children, if_neg]
    exact fun hmem => Int.ne_of_lt h.front.ready.entry_lt (mem_singleton.mp hmem)
  · exact hlog.opened hbuilt.opened fun a ha => (by cases ha)
  · rw [hview]
    exact hbuilt.childless
  · dsimp only
    lia
  · have hall := (h.amid.ends h₂.timelines hjump hcomp).built hst₃ hbuilt fun b hb => .inr hb
    refine hall.defer hready' (fun c hc => ?_) (fun c hc => ?_) hi hside hleaves
      (Int.le_of_eq h.current.symm) (by dsimp only; lia)
    · simpa [or_comm, hcur₃] using hc
    · cases mem_singleton.mp hc
      exact ⟨by simp [hcur₃], by lia⟩
  · obtain ⟨l, hl⟩ := hjump.acts h₂.timelines
    refine ⟨l, ?_⟩
    dsimp only
    rw [hlog.acts, filter_nil, map_nil, append_nil, hacts, hl]
  · dsimp only
    rw [hview, hbuilt.children, if_neg, View.children_of_graph hcomp.works.graph]
    · exact h₂.childless
    · exact fun hmem => Int.ne_of_gt hlater (mem_singleton.mp hmem)

/-- An `if` with `else` has the effects of its condition and its parts, with a jump between them. -/
theorem onward_lowerIfElse (scope : Scope) (cond : Relation) {thenPart elsePart : Lower Unit}
    {ms ns : Walk → List Moment} (h : CanLower F w) (hext : Extending thenPart ms)
    (hext' : Extending elsePart ns) (hthen : Advancing thenPart ops)
    (helse : Advancing elsePart ops') :
    Yields (lowerIfElse scope cond thenPart elsePart) w fun _ w' =>
      Onward w w' (cond.effects ++ ops ++ [.bra] ++ ops') := by
  refine .of_ok fun _ w' hw => ?_
  obtain ⟨branch, w₁, r, w₂, bra, w₃, r', w₄, s, c, hrel, hr, hpart, hemit, hr', ⟨i, hi, hbranch⟩,
    hpart', hin, hclose⟩ :=
    lowerIfElse_cases scope cond h.ready hext hext' _ _ hw
  have hfirst := firstPart scope cond .ifElse h hext hthen hrel hr hpart
  have h₂ := hfirst.canLower
  have hturn := hfirst.turns hemit hr' hi hbranch hin.ready
  have hv := hturn.canLower
  replace hext' := hext' hv.ready _ _ hpart'
  replace hpart' := helse hv _ _ hpart'
  have h₄ := hpart'.canLower hv hext'
  have hlater : w₂.current < w₄.current := Int.lt_of_lt_of_le hturn.later hext'.current
  have hj : Rejoins [w₂.current, w₄.current] bra.id .x w₄ w' := by
    refine hclose.rejoins h₄.toSteady (fun q hq => ?_) ?_
    · rcases mem_cons.mp hq with rfl | hq
      · have hpos := h₂.ready.entry_lt
        have hsize := h₄.ready.newest
        exact ⟨(h₄.ready.sound.laid.layout.graph.valid _).mpr ⟨Int.le_of_lt hpos, by lia⟩, hpos⟩
      · cases mem_singleton.mp hq
        exact ⟨h₄.ready.isSome_current, h₄.ready.entry_lt⟩
    · simpa using Int.ne_of_lt hlater
  have hleaves : Leaves w'.builder w₂.current ⟨bra.id, .x, w'.current⟩ := by
    obtain ⟨l, hl⟩ := hturn.acts
    refine .jump (l := l) ?_ rfl ?_
    · rw [hj.acts h₄.timelines, hpart'.tells.acts hv.timelines (.inl hturn.later), hl]
    · rw [hj.children, if_pos (by simp), hext'.spans.children _ hturn.later, hturn.childless]
      rfl
  have hamid := hturn.amid.part hpart' hv.timelines hext' fun b hb => mem_singleton.mp
    hb ▸ hturn.later
  exact hamid.rejoins h₄ hj (fun b => by simp [or_comm]) hfirst.amid.current hlater hleaves

end

end SingleAssignment.Lowering
