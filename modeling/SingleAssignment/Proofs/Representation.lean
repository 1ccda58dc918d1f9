import Mathlib.Data.List.Nodup
import SingleAssignment.Proofs.Calls

/-!
# The representation of a builder

How a builder keeps its instructions, blocks and versions, in every state that calls lead to
(`Represents`, `represents_after`): ids are positions, each instruction stands on one timeline once,
phis and heads come first, the table of a block lists the versions of a variable that its timeline
marks, in the order of the marks, edges are known at both ends, and constants are shared.

The numbers of the versions of a variable in a block are distinct but for one case. Version 0 is
made where no version is visible, and a version is not visible while its instruction is retired.
Version 0 stands for a constant, which is never retired, unless the repair of a loop makes it stand
for another instruction; and that takes a loop around the first block with code (`zeroTwice`).
-/

namespace SingleAssignment.Builder

open Code List

namespace State

/-- The numbers of the versions of a variable in a block, in order. -/
def numbersOf (s : State) (b : BlockId) (name : String) : List Int :=
  (s.versionsOf b name).filterMap fun v => (s.versions[v]?).map (·.number)

/-- Whether the block of the constants is not entered, and the first block with code only from
there. -/
def IsEnteredOnce (s : State) : Prop :=
  (∀ blk, s.block? entryBlock = some blk → blk.parents = []) ∧
    ∀ blk, s.block? startBlock = some blk → blk.parents = [entryBlock]

end State

/-- How a builder keeps what it knows. -/
structure Represents (s : State) : Prop where
  /-- A block has its place as its id. -/
  block_id : ∀ {n : Nat} {blk}, s.blocks[n]? = some blk → blk.id = n
  /-- An instruction has its place as its id, counted from 1. -/
  inst_id : ∀ {n : Nat} {i}, s.insts[n]? = some i → i.id = n + 1
  /-- Each instruction is on the timeline of its block, once. -/
  once : ∀ {id i}, s.inst? id = some i → (s.timelineOf i.block).count (.inst id) = 1
  /-- An instruction on a timeline belongs to the block. -/
  owner : ∀ {b id}, .inst id ∈ s.timelineOf b → ∃ i, s.inst? id = some i ∧ i.block = b
  /-- Phis and heads come first, and phis by age. -/
  front : ∀ b, ∃ front rest, s.timelineOf b = front ++ rest ∧ (∀ x ∈ front, s.isLead x = true) ∧
    (∀ x ∈ rest, s.isLead x = false) ∧ (front.filterMap Slot.inst?).Pairwise (· < ·)
  /-- The versions of a variable in a block are those that belong there. -/
  versions : ∀ {b name v}, v ∈ s.versionsOf b name ↔
    ∃ a, s.versions[v]? = some a ∧ a.block = b ∧ a.var = name
  /-- The table of a block lists the versions of a variable that the timeline marks, in its
  order. -/
  table : ∀ b name, s.versionsOf b name = s.marks (s.timelineOf b) name
  /-- They are in the order of the timeline, where each is marked once. -/
  marked : ∀ b name, ((s.versionsOf b name).map Slot.mark).Sublist (s.timelineOf b) ∧
    (s.timelineOf b).Nodup
  /-- Their numbers are distinct, but for version 0 in the first block with code. -/
  numbers : ∀ b name, ((s.numbersOf b name).filter fun n => b ≠ startBlock || n ≠ 0).Nodup
  /-- Their numbers are distinct if the first block with code is entered once. -/
  numbers_once : s.IsEnteredOnce → ∀ b name, (s.numbersOf b name).Nodup
  /-- There is one head at most. -/
  head : ∀ b name, ((s.versionsOf b name).filter fun v => (s.versions[v]?).any (·.isHead)).length ≤
    1
  /-- An edge is known at both ends. -/
  edge : ∀ {p c P C}, s.block? p = some P → s.block? c = some C → (c ∈ P.children ↔ p ∈ C.parents)
  /-- The ends of an edge are blocks. -/
  ends : ∀ {b blk}, s.block? b = some blk → ∀ c, c ∈ blk.children ∨ c ∈ blk.parents →
    (s.block? c).isSome
  /-- No edge is there twice. -/
  nodup : ∀ {b blk}, s.block? b = some blk → blk.parents.Nodup ∧ blk.children.Nodup
  /-- The first dominator of a block is the block. -/
  dominators : ∀ {b blk}, s.block? b = some blk → blk.dominators.head? = some b
  /-- Constants are in the first block. -/
  const : ∀ {id i}, s.inst? id = some i → i.op = .const → i.block = entryBlock ∧ ∃ n,
    i.x = .literal n
  /-- No two constants have the same literal. -/
  const_inj : ∀ {id id' i i'}, s.inst? id = some i → s.inst? id' = some i' → i.op = .const →
    i'.op = .const → i.x = i'.x → id = id'

section Represents

variable {s : State} {b : BlockId} {name : String}

open State

theorem Listed.nodup_versionsOf (h : Listed s) (b : BlockId) (name : String) :
    (s.versionsOf b name).Nodup := by
  rw [h.tabled]
  refine List.Pairwise.filter _ (pairwise_filterMap.mpr
    ((h.nodup b).imp fun {x y} hne v hv w hw he => hne ?_))
  cases x <;> cases hv
  cases y <;> cases hw
  rw [he]

theorem sublist_marks (s : State) (slots : List Slot) (name : String) :
    ((s.marks slots name).map Slot.mark).Sublist slots := by
  refine (filter_sublist.map Slot.mark).trans ?_
  induction slots with
  | nil => exact .slnil
  | cons x xs ih =>
    cases x with
    | inst id => exact ih.cons _
    | mark v => exact ih.cons_cons _

theorem Listed.front (h : Listed s) (b : BlockId) : ∃ front rest, s.timelineOf b = front ++ rest ∧
    (∀ x ∈ front, s.isLead x = true) ∧ (∀ x ∈ rest, s.isLead x = false) ∧
    (front.filterMap Slot.inst?).Pairwise (· < ·) := by
  refine ⟨(s.timelineOf b).take (s.leadingRun b), (s.timelineOf b).drop (s.leadingRun b),
    (take_append_drop ..).symm, ?_, ?_, ?_⟩
  · rw [leadingRun_eq_takeWhile]
    exact fun x hx => of_mem_take hx
  · rw [leadingRun_eq_takeWhile]
    exact not_of_mem_drop (h.lead b) (Nat.le_refl _)
  · refine pairwise_filterMap.mpr ?_
    have hlead : ∀ x ∈ (s.timelineOf b).take (s.leadingRun b), s.isLead x = true := by
      rw [leadingRun_eq_takeWhile]
      exact fun x hx => of_mem_take hx
    refine List.Pairwise.imp_of_mem (fun {x y} hx hy hage i hi j hj => ?_)
      ((h.phis b).sublist (take_sublist ..))
    cases x with
    | mark v => cases hi
    | inst id =>
      cases y with
      | mark v => cases hj
      | inst id' =>
        cases hi
        cases hj
        exact hage _ _ rfl rfl (hlead _ hx) (hlead _ hy)

/-- What holds of the numbers of any two versions holds of the numbers of a variable in a block. -/
theorem WellFormed.pairwise_numbersOf (h : WellFormed s) {R : Int → Int → Prop}
    (hR : ∀ {v w : VersionId} {a c}, s.versions[v]? = some a → s.versions[w]? = some c → v ≠ w →
      a.block = b → c.block = b → a.var = c.var → R a.number c.number) :
        (s.numbersOf b name).Pairwise R := by
  refine pairwise_filterMap.mpr (List.Pairwise.imp_of_mem (fun {v w} hv hw hne n hn m hm => ?_)
    (h.listed.nodup_versionsOf b name))
  obtain ⟨a, ha, hblock, hvar⟩ := h.mem_versionsOf.mp hv
  obtain ⟨c, hc, hblock', hvar'⟩ := h.mem_versionsOf.mp hw
  rw [ha] at hn
  rw [hc] at hm
  cases hn
  cases hm
  exact hR ha hc hne hblock hblock' (hvar.trans hvar'.symm)

theorem WellFormed.length_heads_le (h : WellFormed s) (b : BlockId) (name : String) :
    ((s.versionsOf b name).filter fun v => (s.versions[v]?).any (·.isHead)).length ≤ 1 := by
  have hmem : ∀ {v}, v ∈ (s.versionsOf b name).filter (fun v => (s.versions[v]?).any (·.isHead)) →
      ∃ a, s.versions[v]? = some a ∧ a.isHead = true ∧ a.block = b ∧ a.var = name := by
    intro v hv
    obtain ⟨hv, hhead⟩ := mem_filter.mp hv
    obtain ⟨a, ha, hblock, hvar⟩ := h.mem_versionsOf.mp hv
    rw [ha] at hhead
    exact ⟨a, ha, hhead, hblock, hvar⟩
  have hnone : ((s.versionsOf b name).filter fun v => (s.versions[v]?).any (·.isHead)).Pairwise
      fun _ _ => False := by
    refine List.Pairwise.imp_of_mem (fun hv hw hne => ?_)
      ((h.listed.nodup_versionsOf b name).filter _)
    obtain ⟨a, ha, hhead, hblock, hvar⟩ := hmem hv
    obtain ⟨c, hc, hhead', hblock', hvar'⟩ := hmem hw
    exact hne (h.versioned.head ha hc hhead hhead' (hblock.trans hblock'.symm)
      (hvar.trans hvar'.symm))
  generalize (s.versionsOf b name).filter _ = heads at hnone
  rcases heads with _ | ⟨v, _ | ⟨w, rest⟩⟩
  · exact Nat.zero_le 1
  · exact Nat.le_refl 1
  · exact (rel_of_pairwise_cons hnone (mem_cons_self ..)).elim

theorem WellFormed.represents (h : WellFormed s) (hdom : s.Dominated) : Represents s where
  block_id := fun {n blk} hb => h.wired.id_eq (b := n) (by simpa [State.block?] using hb)
  inst_id := fun {n i} hi => by
    have hid : s.inst? (n + 1) = some i := by
      rw [inst?, if_pos (by lia)]
      simpa using hi
    exact h.listed.id_eq hid
  once := fun {id i} hi => count_eq_one_of_mem (h.listed.nodup _)
    ((h.listed.mem_iff _ _).mpr (by rw [ownerOf, hi, Option.map_some]))
  owner := fun {b id} hmem => Option.map_eq_some_iff.mp ((h.listed.mem_iff b (.inst id)).mp hmem)
  front := h.listed.front
  versions := h.mem_versionsOf
  table := h.listed.tabled
  marked := fun b name => ⟨h.listed.tabled b name ▸ sublist_marks s _ name, h.listed.nodup b⟩
  numbers := fun b name => by
    refine pairwise_filter.mpr (h.pairwise_numbersOf fun {v w a c} ha hc hne hb hb' hvar hn _ he =>
      ?_)
    rcases h.versioned.number ha hc (hb.trans hb'.symm) hvar he with hvw | hz
    · exact hne hvw
    · have hstart := ((h.versioned.least ha).2 hz).1
      simp [← hb, hstart, hz] at hn
  numbers_once := fun hentered b name => by
    refine h.pairwise_numbersOf fun {v w a c} ha hc hne hb hb' hvar he => ?_
    rcases h.versioned.number ha hc (hb.trans hb'.symm) hvar he with hvw | hz
    · exact hne hvw
    · refine hne (h.versioned.zero_inj ⟨hentered.1, fun blk hblk p hp => ?_, hdom⟩ ha hc hz
        (he ▸ hz) hvar)
      rw [hentered.2 blk hblk] at hp
      exact mem_singleton.mp hp
  head := h.length_heads_le
  edge := fun {p c P C} hP hC => by
    constructor
    · intro hc
      obtain ⟨C', hC', hp⟩ := h.wired.child hP hc
      cases hC.symm.trans hC'
      exact hp
    · intro hp
      obtain ⟨P', hP', hc⟩ := h.wired.parent hC hp
      cases hP.symm.trans hP'
      exact hc
  ends := fun {b blk} hb c hc => by
    rcases hc with hc | hc
    · obtain ⟨C, hC, -⟩ := h.wired.child hb hc
      exact isSome_of_eq hC
    · obtain ⟨P, hP, -⟩ := h.wired.parent hb hc
      exact isSome_of_eq hP
  nodup := h.wired.nodup
  dominators := fun {b blk} hb => by
    obtain ⟨ds, hds⟩ := h.wired.doms hb
    rw [hds]
    rfl
  const := fun {id i} hi hop => by
    obtain ⟨hblock, -, n, hn, -⟩ := h.known.const hi hop
    exact ⟨hblock, n, hn⟩
  const_inj := h.known.const_inj

end Represents

/-- Whatever calls a builder gets, failed ones included, it keeps what it knows as it should, if the
first block with code is a dominator of every block that the calls make. -/
theorem represents_after (settings : Settings) (calls : List Call)
    (hcalls : ∀ c ∈ calls, c.IsBelow) : Represents (State.after settings calls) :=
  (wellFormed_after settings calls).represents (dominated_after settings hcalls)

/-- A variable that one of two paths assigns, merged where they meet. -/
theorem represents_after_join : Represents (State.after {} [
    .newBlock { kind := .thenPart, dominators := [startBlock, entryBlock],
                parents := [startBlock] },
    .openJoin .ifThen, .const 1, .assign 2 "x" ⟨1, .immediate 1 1⟩,
    .newBlock { kind := .join, join := .ifThen, dominators := [startBlock, entryBlock],
                parents := [2, startBlock] },
    .reconcileIf 3, .lookup 0 "x"]) :=
  represents_after {} _ (by simp [Call.IsBelow])

/-- Calls after which version 0 of a variable is there twice: its first copy is made to stand for
the phi of another variable by a loop around the first block with code, and then the phi is
retired. -/
def zeroTwice : List Call :=
  let zero : Value := ⟨1, .read "x" 0 startBlock 1⟩
  let one : Value := ⟨2, .immediate 1 2⟩
  [.lookup startBlock "x",
    .newBlock { kind := .thenPart, dominators := [startBlock, entryBlock],
                parents := [startBlock] },
    .const 1,
    .assign 2 "y" one,
    .newBlock { kind := .join, join := .ifThen, dominators := [startBlock, entryBlock],
                parents := [2, startBlock] },
    .lookup 3 "y",
    .assign startBlock "x" ⟨1, .read "y" 0 3 1⟩,
    .placePhi 3 "y" one zero,
    .openJoin .loop,
    .newBlock { kind := .loopHeader, join := .loop, dominators := [3, startBlock, entryBlock],
                parents := [3] },
    .newBlock { kind := .loopBody, dominators := [4, 3, startBlock, entryBlock], parents := [4] },
    .link 5 startBlock,
    .reconcileLoop 4 5 0,
    .placePhi 3 "y" one one,
    .lookup startBlock "x"]

theorem numbersOf_zeroTwice : (∀ c ∈ zeroTwice, c.IsBelow) ∧
    (State.after {} zeroTwice).numbersOf startBlock "x" = [0, 0] ∧
    ¬((State.after {} zeroTwice).numbersOf startBlock "x").Nodup := by
  have hnumbers : (State.after {} zeroTwice).numbersOf startBlock "x" = [0, 0] := by decide +kernel
  refine ⟨?_, hnumbers, ?_⟩
  · simp [zeroTwice, Call.IsBelow]
  · rw [hnumbers]
    decide

end SingleAssignment.Builder
