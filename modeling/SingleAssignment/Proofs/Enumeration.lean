import SingleAssignment.Proofs.Seclusion

/-!
# Repairs and the order of tables

A repair goes through tables that have no order of their own: through what is outdated, once to
point versions outside the loop at what stands in for it and once in each pass that retires
instructions, and in each such pass through what is referred to. The state that closing a loop leads
to is the same for every order (`reconcileLoop_enumeration`).

No version outside the loop was computed from what is outdated (`Repair.rebindOutside_eq`), and a
pass retires what it found before it retired anything (`Repair.retireStale_eq`).
-/

namespace SingleAssignment.Builder

open Code

namespace Repair

variable {e : Enumeration} {floor F : BlockId} {W : Want → Prop} {loop : List BlockId} {r : Repair}

theorem retire_retire (s : State) (a b : InstId) : retire (retire s a) b = retire
    (retire s b) a := by
  unfold retire State.modifyInst
  split <;> split <;> try rfl
  simp only [State.mk.injEq, and_true, true_and]
  refine Array.ext_getElem? fun i => ?_
  simp only [Array.getElem?_modify]
  split <;> split <;> simp [Option.map_map]

theorem retireStale_eq (olds : List InstId) (fuel : Nat) (s : State) :
    retireStale e olds fuel s = retireStale .listed olds fuel s := by
  induction fuel generalizing s with
  | zero => rfl
  | succ left ih =>
    have hstale : (stale e left s olds).Perm (stale .listed left s olds) := by
      unfold stale
      simp only [(e.perm _ (referenced s)).contains_eq]
      exact (e.perm _ olds).filter _
    rw [retireStale, retireStale, hstale.isEmpty_eq, ih,
      hstale.foldl_eq' fun a _ b _ s => retire_retire s a b]

theorem run_eq (hR : Region floor F loop) (header : BlockId) (h : Consistent floor F W r)
    (hall : ∀ b, F ≤ b → (r.base.view.graph b).isSome → b ∈ loop) :
    run e header loop r = run .listed header loop r := by
  have hr := (mending W hR).rounds (mending_report hR) header (2 * loop.length + 4) 0 ⟨h, hall⟩
  have hreplay : ∀ e : Enumeration, (rounds header loop (2 * loop.length + 4) 0 r).2.replay e loop =
      let r := loop.foldl (rebindBlock loop) (rounds header loop (2 * loop.length + 4) 0 r).2.forget
      { r with base := retireStale .listed r.outdated (r.outdated.length + 1) r.base } := by
    intro e
    have houtside := rebindOutside_rebindBlocks hR (hr.consistent h) (hr.works.graph ▸ hall) rfl
    unfold replay
    dsimp only
    rw [foldl_eq_self fun old hold => houtside old ((e.perm 0 _).mem_iff.mp hold), retireStale_eq]
  unfold run
  dsimp only
  rw [hreplay e, hreplay .listed]

end Repair

theorem Repairable.repairLoopIn_eq {floor header : BlockId} {s : State}
    (h : Repairable floor header s) (e : Enumeration) :
    s.repairLoopIn e header = s.repairLoop header := by
  let W : Want → Prop
    | .join .. => False
    | _ => True
  have hW : Wanted header W s := ⟨h.root, fun _ _ _ _ _ _ _ => trivial, fun _ _ _ _ => trivial,
    fun _ _ hw => hw⟩
  exact congrArg Repair.base (Repair.run_eq h.region header (h.consistent hW) h.reached)

end SingleAssignment.Builder

namespace SingleAssignment.Lowering

open Code Builder Source

/-- The order of tables does not matter where a loop is closed. -/
theorem Closing.Ends.reconcileLoopIn_eq {k : Closing} (h : k.Ends) (e : Enumeration) :
    reconcileLoopIn e k.header k.bottom k.branch k.state = reconcileLoop k.header k.bottom
      k.branch k.state := by
  obtain @⟨F, w, v, w', branch, bra, ops, ms, h, hbottom⟩ := h
  obtain ⟨exit, t, c, s, u, -, hdone⟩ := h.ending hbottom
  obtain ⟨rest, hctx, hs⟩ := hdone.closes.popped
  have hsame := (hdone.linked.repairable h hdone.closes.linked hdone.low
    hdone.closes.valid).repairLoopIn_eq e
  show EStateM.bind _ _ _ = EStateM.bind _ _ _
  unfold EStateM.bind
  cases hmerge : mergeLoop v.current w'.current (w'.builder.defer bra .x v.current) with
  | error => rfl
  | ok _ t =>
    obtain ⟨-, c', rest', -, -, -, hctx', rfl⟩ := yields_mergeLoop _ _ hmerge
    cases hctx.symm.trans hctx'
    rw [hs] at hsame
    exact congrArg (exitLoop v.current branch) hsame

/-- Whenever lowering closes a loop, this succeeds and leads to the same state in whatever order the
tables of the repair are gone through. -/
theorem reconcileLoop_enumeration (settings : Settings) (c : Computation) :
    ∀ k ∈ closings settings c, ∃ exit t, reconcileLoop k.header k.bottom k.branch
      k.state = .ok exit t ∧ ∀ e : Enumeration, reconcileLoopIn e k.header k.bottom k.branch
        k.state = .ok exit t := by
  intro k hk
  obtain ⟨_, w, hdeclare, hk⟩ := mem_follow.mp hk
  obtain ⟨h, -⟩ := canLower_declareArrays c.arrays (canLower_new settings 0) rfl _ _ hdeclare
  have hends := ends_stmtsClosings _ c.body h k hk
  obtain ⟨exit, t, hcall, -⟩ := hends.undisturbed
  exact ⟨exit, t, hcall, fun e => (hends.reconcileLoopIn_eq e).trans hcall⟩

theorem reconcileLoop_enumeration_nestedLoops : ∃ k ∈ closings {} nestedLoops, k.header = 4 ∧
    ∃ exit t, reconcileLoop k.header k.bottom k.branch k.state = .ok exit t ∧
      ∀ e : Enumeration, reconcileLoopIn e k.header k.bottom k.branch k.state = .ok exit t := by
  have hany : (closings {} nestedLoops).any (·.header == 4) = true := by decide +kernel
  obtain ⟨k, hk, hheader⟩ := List.any_eq_true.mp hany
  exact ⟨k, hk, beq_iff_eq.mp hheader, reconcileLoop_enumeration {} nestedLoops k hk⟩

end SingleAssignment.Lowering
