import SingleAssignment.Proofs.Reuse

/-!
# Dominators

No analysis finds the dominators of a block: the list is copied from the block in front when the
block is made, and edges are added later. In a finished program the lists are exact all the same. A
block stands in the list of another just if no route from the block of the constants to the other
gets past it (`dominators_exact`).

One half is what every edge respects: a block is entered only from blocks that its dominators
dominate. The other half is how each block was entered first. Past a block that is not in its list
there is always an earlier parent to come from.
-/

namespace SingleAssignment

open Code Builder List

namespace Program

/-- A route along edges from the block of the constants to a block, and the blocks on it, last
first. -/
inductive Route (p : Program) : BlockId → List BlockId → Prop
  | entry : Route p entryBlock [entryBlock]
  | edge {b c : BlockId} {bs : List BlockId} (route : Route p b bs) (hc : c ∈ p.childrenOf b) :
      Route p c (c :: bs)

/-- Every route to block `b` passes block `d`. -/
def Dominates (p : Program) (d b : BlockId) : Prop :=
  ∀ bs, p.Route b bs → d ∈ bs

/-- Every route to block `b` passes block `d`, which is another. -/
def StrictlyDominates (p : Program) (d b : BlockId) : Prop :=
  d ≠ b ∧ p.Dominates d b

end Program

namespace Builder

/-! ## The lists of dominators -/

namespace View.Graph

variable {V : View} {b d e : BlockId}

theorem doms_entry (h : V.Graph) : V.doms entryBlock = [entryBlock] := by
  have hvalid : (V.graph entryBlock).isSome :=
    (h.valid entryBlock).mpr ⟨Int.le_refl _, Int.ofNat_lt.mpr
      (Nat.lt_of_lt_of_le Nat.zero_lt_two h.start)⟩
  rw [h.doms_eq hvalid, cons_inj_right, eq_nil_iff_forall_not_mem]
  intro d hd
  have hlt := h.lt hd
  exact absurd hlt.1 (Int.not_le.mpr hlt.2)

/-- What stands behind a dominator in a list dominates that one as well. -/
theorem above_of_sublist (h : V.Graph) (hsub : [d, e].Sublist (V.doms b)) : e ∈ V.above d := by
  obtain ⟨L, R, hsplit, hd, he⟩ := cons_sublist_iff.mp hsub
  obtain ⟨L₁, L₂, rfl⟩ := append_of_mem hd
  rw [append_assoc, cons_append] at hsplit
  rw [View.above, h.chain hsplit]
  exact mem_append_right _ (singleton_sublist.mp he)

end View.Graph

end Builder

/-! ## Routes -/

namespace Program.Holds

variable {p : Program} {t : State} {b d : BlockId}

/-- A route passes the dominators of its end: each edge keeps to them. -/
theorem mem_of_route (h : p.Holds t) (hg : t.view.Graph) {bs : List BlockId} (hr : p.Route b bs)
    (hd : d ∈ t.view.doms b) : d ∈ bs := by
  induction hr with
  | entry => rwa [hg.doms_entry] at hd
  | edge route hc ih =>
    rw [h.childrenOf_eq] at hc
    obtain ⟨hvalid, -, habove, -⟩ := hg.edge hc
    rw [hg.doms_eq hvalid] at hd
    rcases mem_cons.mp hd with rfl | hd
    · exact mem_cons_self ..
    · exact mem_cons_of_mem _ (ih (habove _ hd))

/-- A block that is no dominator can be avoided, by the way the blocks were entered first. -/
theorem exists_route (h : p.Holds t) (hg : t.view.Graph) (he : t.view.Entered) :
    ∀ b : BlockId, (t.view.graph b).isSome → d ∉ t.view.doms b → ∃ bs, p.Route b bs ∧ d ∉ bs := by
  intro b
  induction hn : b.toNat using Nat.strongRecOn generalizing b with
  | ind n ih =>
  intro hvalid hd
  by_cases hb : b = entryBlock
  · subst hb
    rw [hg.doms_entry] at hd
    exact ⟨_, .entry, hd⟩
  · obtain ⟨q, hq, hlt, hout⟩ := he b d hvalid hb hd
    obtain ⟨hvalid', hchild⟩ := hg.parent hq
    have h0 := ((hg.valid q).mp hvalid').1
    obtain ⟨bs, hroute, havoid⟩ := ih q.toNat (by lia) q rfl hvalid' hout
    rw [hg.doms_eq hvalid] at hd
    refine ⟨b :: bs, .edge hroute (by rw [h.childrenOf_eq]; exact hchild), fun hm => ?_⟩
    rcases mem_cons.mp hm with rfl | hm
    · exact hd (mem_cons_self ..)
    · exact havoid hm

theorem mem_doms_iff (h : p.Holds t) (hg : t.view.Graph) (he : t.view.Entered)
    (hb : (t.view.graph b).isSome) : d ∈ t.view.doms b ↔ p.Dominates d b := by
  constructor
  · intro hd bs hroute
    exact h.mem_of_route hg hroute hd
  · intro hd
    by_contra hout
    obtain ⟨bs, hroute, havoid⟩ := h.exists_route hg he b hb hout
    exact havoid (hd bs hroute)

end Program.Holds

namespace Lowering

open Source

/-- The dominators of every block of a lowered program are listed exactly: the block can be reached,
and its list holds the blocks that every route to it passes, each once and the nearest first. -/
theorem dominators_exact {settings : Settings} {c : Computation} {p : Program}
    (hlower : lower settings c = .ok p) {b : BlockId} {blk : Block} (hb : p.block? b = some blk) :
    (∃ bs, p.Route b bs) ∧ (∀ d, d ∈ blk.dominators ↔ p.Dominates d b) ∧ blk.dominators.Nodup ∧
      blk.dominators.Pairwise fun d e => p.StrictlyDominates e d := by
  obtain ⟨w, hready, hinsts, hblocks, -⟩ := lower_seen hlower
  have hholds : p.Holds w.builder := ⟨hinsts, hblocks⟩
  have hg := hready.sound.laid.layout.graph
  have he := hready.sound.entered
  rw [hholds.block?_eq] at hb
  have hvalid : (w.builder.view.graph b).isSome := State.isSome_view_graph.mpr ⟨blk, hb⟩
  have hdoms : w.builder.view.doms b = blk.dominators := by
    rw [← dominatorsOf_eq, State.dominatorsOf, hb]
    rfl
  refine ⟨?_, fun d => ?_, ?_, ?_⟩
  · -- no list holds a negative number, so that any route will do
    obtain ⟨bs, hroute, -⟩ := hholds.exists_route (d := -1) hg he b hvalid fun hm =>
      absurd (hg.le_of_mem_doms hm).1 (by decide)
    exact ⟨bs, hroute⟩
  · rw [← hdoms]
    exact hholds.mem_doms_iff hg he hvalid
  · rw [← hdoms, List.Nodup, pairwise_iff_forall_sublist]
    intro d e hsub
    exact Int.ne_of_gt (hg.lt (hg.above_of_sublist hsub)).2
  · rw [← hdoms, pairwise_iff_forall_sublist]
    intro d e hsub
    have habove := hg.above_of_sublist hsub
    refine ⟨Int.ne_of_lt (hg.lt habove).2, fun bs hroute => hholds.mem_of_route hg hroute ?_⟩
    exact mem_of_mem_tail habove

/-- A loop whose body is an `if` with two parts. -/
def branchInLoop : Computation where
  vars := []
  arrays := []
  body :=
    let x : Expr := .element "x" [] .start
    [.loop ⟨.less, x, .num 9⟩
      [.ifElse ⟨.equal, x, .num 3⟩
        [.assign ⟨"x", [], .start⟩ (.binary .add x (.num 2)) .start]
        [.assign ⟨"x", [], .start⟩ (.binary .add x (.num 1)) .start] .start] .start]

/-- The join of the `if` is dominated by the block in front of the `if` and the header, and by
neither part. -/
theorem dominators_branchInLoop : ∃ p blk, lower {} branchInLoop = .ok p ∧ p.block? 6 = some blk ∧
    blk.dominators = [6, 3, 2, 1, 0] ∧ (∃ bs, p.Route 6 bs) ∧
    (∀ d, d ∈ blk.dominators ↔ p.Dominates d 6) ∧ ¬ p.Dominates 4 6 ∧ ¬ p.Dominates 5 6 := by
  have hany : (lower {} branchInLoop).toOption.any (fun p =>
      (p.block? 6).any fun blk => blk.dominators == [6, 3, 2, 1, 0]) = true := by decide +kernel
  cases hp : lower {} branchInLoop with
  | error r => simp [hp, Except.toOption] at hany
  | ok p =>
    simp only [hp, Except.toOption, Option.any_some, Option.any_eq_true, beq_iff_eq] at hany
    obtain ⟨blk, hblk, hdoms⟩ := hany
    obtain ⟨hroute, hexact, -, -⟩ := dominators_exact hp hblk
    refine ⟨p, blk, rfl, hblk, hdoms, hroute, hexact, fun h => ?_, fun h => ?_⟩
    · have hm := (hexact 4).mpr h
      rw [hdoms] at hm
      exact absurd hm (by decide)
    · have hm := (hexact 5).mpr h
      rw [hdoms] at hm
      exact absurd hm (by decide)

end Lowering

end SingleAssignment
