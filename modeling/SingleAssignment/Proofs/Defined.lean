import Mathlib.Data.List.Nodup
import Mathlib.Data.List.Pairwise
import SingleAssignment.Program.Check
import SingleAssignment.Proofs.Dominance

/-!
# Definitions before uses

`Program.check` compares ids, owners, places and lists of dominators, each operand for itself. Where
only blocks that are passed on every route are listed as dominators, this is enough for all of a
run: whatever way control took to an instruction, round any loops, what the instruction refers to
was passed on the way and is active, so it was executed (`check_sound`). It does not matter how the
program was made.

The argument has two halves. What is listed in a block that a way has left was passed
(`Path.passed`), and the check places each operand in such a block or earlier in the same one
(`Orderly.operand_placed`).
-/

namespace SingleAssignment

open Code Builder List

namespace Program

/-- Blocks and instructions stand under their ids, no instruction is listed twice, and the
dominators of a block are passed on every route to it. -/
structure Orderly (p : Program) : Prop where
  block_id : ∀ {n : Nat} {b : Block}, p.blocks[n]? = some b → b.id = n
  inst_id : ∀ {n : Nat} {i : Instruction}, p.insts[n]? = some i → i.id = n + 1
  listed : (p.blocks.toList.flatMap Block.order).Nodup
  dominators : ∀ {b d : BlockId} {blk : Block}, p.block? b = some blk → d ∈ blk.dominators →
    p.Dominates d b

variable {p : Program} {b c : BlockId} {blk : Block} {i j : Instruction} {id : InstId}
  {ids : List InstId}

/-! ## What a check that succeeds has found -/

theorem require_eq_ok {holds : Bool} {v : Violation} : require holds v = .ok () ↔ holds = true := by
  unfold require
  split <;> simp_all

theorem bind_eq_ok {x : Except Violation Unit} {y : Unit → Except Violation Unit} :
    (x >>= y) = .ok () ↔ x = .ok () ∧ y () = .ok () := by
  cases x with
  | error v => simp [bind, Except.bind]
  | ok u => simp [bind, Except.bind]

theorem forM_eq_ok {α : Type} {f : α → Except Violation Unit} {l : List α} :
    l.forM f = .ok () ↔ ∀ a ∈ l, f a = .ok () := by
  induction l with
  | nil => simp [pure, Except.pure]
  | cons a l ih =>
    have hcons : (a :: l).forM f = (f a >>= fun _ => l.forM f) := rfl
    rw [hcons, bind_eq_ok, ih, forall_mem_cons]

theorem block_eq_of_checkOrder {body : Bool} {is : List Instruction}
    (h : checkOrder blk body is = .ok ()) (hi : i ∈ is) : i.block = blk.id := by
  induction is generalizing body with
  | nil => cases hi
  | cons k is ih =>
    simp only [checkOrder, bind_eq_ok, require_eq_ok, beq_iff_eq] at h
    obtain ⟨hk, hrest⟩ := h
    rcases mem_cons.mp hi with rfl | hi
    · exact hk
    · split at hrest
      · simp only [bind_eq_ok] at hrest
        exact ih hrest.2.2 hi
      · simp only [bind_eq_ok] at hrest
        exact ih hrest.2 hi

/-- The active instructions that a block lists belong to it. -/
theorem block_eq_of_check (h : p.check = .ok ()) (hb : blk ∈ p.blocks.toList)
    (hi : i ∈ p.order blk) : i.block = blk.id := by
  simp only [check, bind_eq_ok, forM_eq_ok] at h
  have hblk := h.1 blk hb
  simp only [checkBlock, bind_eq_ok] at hblk
  exact block_eq_of_checkOrder hblk.2.2.2 hi

theorem checkOperand_of_check (h : p.check = .ok ()) (hi : i ∈ p.insts.toList)
    (hact : i.active = true) (side : Side) : p.checkOperand i side = .ok () := by
  simp only [check, bind_eq_ok, forM_eq_ok] at h
  have hinst := h.2 i hi
  simp only [checkInst, hact, Bool.not_true, Bool.false_eq_true, if_false, bind_eq_ok] at hinst
  cases side with
  | x => exact hinst.1
  | y => exact hinst.2.1

/-! ## Where instructions are listed -/

theorem exists_of_home? {found : BlockId × Nat} (h : p.home? id = some found) :
    ∃ blk k, blk ∈ p.blocks.toList ∧ (∃ j, (p.order blk)[k]? = some j ∧ j.id = id) ∧
      found = (blk.id, k) := by
  obtain ⟨blk, hb, hk⟩ := exists_of_findSome?_eq_some h
  obtain ⟨k, hfind, rfl⟩ := Option.map_eq_some_iff.mp hk
  obtain ⟨hlt, hid, -⟩ := findIdx?_eq_some_iff_getElem.mp hfind
  exact ⟨blk, k, mem_reverse.mp hb, ⟨_, getElem?_eq_getElem hlt, by simpa using hid⟩, rfl⟩

theorem mem_blocks (h : p.block? b = some blk) : blk ∈ p.blocks.toList := by
  unfold block? at h
  split at h
  · exact Array.mem_toList_iff.mpr (Array.mem_of_getElem? h)
  · cases h

theorem id_of_block? (h : ∀ {n : Nat} {b : Block}, p.blocks[n]? = some b → b.id = n)
    (hb : p.block? b = some blk) : blk.id = b := by
  unfold block? at hb
  split at hb
  · have := h hb
    lia
  · cases hb

theorem mem_insts (h : p.inst? id = some i) : i ∈ p.insts.toList := by
  unfold inst? at h
  split at h
  · exact Array.mem_toList_iff.mpr (Array.mem_of_getElem? h)
  · cases h

namespace Orderly

theorem inst?_id (h : p.Orderly) (hi : p.inst? id = some i) : i.id = id := by
  unfold inst? at hi
  split at hi
  · have := h.inst_id hi
    lia
  · cases hi

theorem block?_of_mem (h : p.Orderly) (hb : blk ∈ p.blocks.toList) :
    p.block? blk.id = some blk := by
  obtain ⟨n, hn⟩ := mem_iff_getElem?.mp hb
  rw [Array.getElem?_toList] at hn
  have hid := h.block_id hn
  rw [block?, if_pos (by lia), hid, Int.toNat_natCast]
  exact hn

theorem of_mem_order (h : p.Orderly) (hi : i ∈ p.order blk) : p.inst? i.id = some i ∧
    i.active = true := by
  obtain ⟨hi, hact⟩ := mem_filter.mp hi
  obtain ⟨id, -, hid⟩ := mem_filterMap.mp hi
  exact ⟨by rw [h.inst?_id hid]; exact hid, hact⟩

theorem map_id_sublist (h : p.Orderly) (b : Block) : ((p.order b).map (·.id)).Sublist b.order := by
  have hids : ∀ ids : List InstId, ((ids.filterMap p.inst?).map (·.id)).Sublist ids := by
    intro ids
    induction ids with
    | nil => exact .slnil
    | cons x ids ih =>
      cases hx : p.inst? x with
      | none =>
        rw [filterMap_cons_none hx]
        exact ih.cons x
      | some i =>
        rw [filterMap_cons_some hx, map_cons, h.inst?_id hx]
        exact ih.cons_cons x
  exact (filter_sublist.map _).trans (hids b.order)

theorem nodup_order (h : p.Orderly) (hb : blk ∈ p.blocks.toList) : blk.order.Nodup :=
  (nodup_flatMap.mp h.listed).1 blk hb

/-- Only one block lists an instruction. -/
theorem eq_of_listed (h : p.Orderly) {blk' : Block} (hb : blk ∈ p.blocks.toList)
    (hb' : blk' ∈ p.blocks.toList) (hi : i ∈ p.order blk) (hj : j ∈ p.order blk')
    (hid : i.id = j.id) : blk = blk' := by
  by_contra hne
  have hsymm : Std.Symm (Function.onFun List.Disjoint Block.order) := ⟨fun _ _ h _ hx hy => h hy hx⟩
  have hdisjoint := (nodup_flatMap.mp h.listed).2.forall hb hb' hne
  refine hdisjoint ((h.map_id_sublist blk).subset (mem_map_of_mem hi)) ?_
  rw [hid]
  exact (h.map_id_sublist blk').subset (mem_map_of_mem hj)

/-- The instruction that control has come to is known at that very place. -/
theorem home?_eq (h : p.Orderly) (hb : blk ∈ p.blocks.toList) {n : Nat}
    (hn : (p.order blk)[n]? = some i) : p.home? i.id = some (blk.id, n) := by
  have hi : i ∈ p.order blk := mem_of_getElem? hn
  cases hhome : p.home? i.id with
  | none =>
    simp only [home?, findSome?_eq_none_iff, mem_reverse, Option.map_eq_none_iff,
      findIdx?_eq_none_iff] at hhome
    exact absurd (hhome blk hb i hi) (by simp)
  | some found =>
    obtain ⟨blk', k, hb', ⟨j, hk, hid⟩, rfl⟩ := exists_of_home? hhome
    obtain rfl := h.eq_of_listed hb hb' hi (mem_of_getElem? hk) hid.symm
    have hids : ((p.order blk).map (·.id))[n]? = ((p.order blk).map (·.id))[k]? := by
      rw [getElem?_map, getElem?_map, hn, hk, Option.map_some, Option.map_some, hid]
    have hlt : n < ((p.order blk).map (·.id)).length := by
      rw [length_map]
      exact (List.getElem?_eq_some_iff.mp hn).1
    have hnodup := (h.nodup_order hb).sublist (h.map_id_sublist blk)
    rw [(getElem?_inj hlt hnodup).mp hids]

/-- The check has found what an operand refers to in a dominator of its block, and before it if that
is the block itself. -/
theorem operand_placed (h : p.Orderly) (hcheck : p.check = .ok ()) (hb : p.block? b = some blk)
    {n : Nat} (hn : (p.order blk)[n]? = some i) (hphi : i.op ≠ .phi) {side : Side}
    (hside : i.isTarget side = false) (hslot : (i.slot side).inst? = some id) :
    ∃ home blk' k j, home ∈ blk.dominators ∧ p.block? home = some blk' ∧
      (p.order blk')[k]? = some j ∧ p.inst? id = some j ∧ j.active = true ∧ (home = b → k < n) := by
  have hmem := mem_blocks hb
  have hi := mem_of_getElem? hn
  obtain ⟨hinst, hact⟩ := h.of_mem_order hi
  have hown : i.block = b := by rw [block_eq_of_check hcheck hmem hi, id_of_block? h.block_id hb]
  have hoperand := checkOperand_of_check hcheck (mem_insts hinst) hact side
  simp only [checkOperand, hslot, bind_eq_ok, require_eq_ok, hside, beq_eq_false_iff_ne.mpr hphi,
    Bool.or_self, Bool.false_eq_true, if_false, hown, hb, Option.map_some, Option.getD_some,
    h.home?_eq hmem hn] at hoperand
  obtain ⟨-, hactive, hplaced⟩ := hoperand
  obtain ⟨j, hj, hjact⟩ := (Option.any_eq_true _ _).mp hactive
  cases hhome : p.home? id with
  | none => simp [hhome, throw, throwThe, MonadExceptOf.throw] at hplaced
  | some found =>
    obtain ⟨blk', k, hb', ⟨j', hk, hid⟩, rfl⟩ := exists_of_home? hhome
    simp only [hhome, bind_eq_ok, require_eq_ok] at hplaced
    obtain ⟨hdom, hbefore⟩ := hplaced
    obtain rfl : j' = j := by
      have := (h.of_mem_order (mem_of_getElem? hk)).1
      rw [hid, hj] at this
      exact (Option.some.inj this).symm
    refine ⟨blk'.id, blk', k,
      j', by simpa using hdom, h.block?_of_mem hb', hk, hj, hjact, fun he => ?_⟩
    simpa [he] using hbefore

end Orderly

/-! ## What was passed on the way -/

/-- Of the blocks that a way has left everything was passed, and of the block that it has come to,
what stands in front. `passed` is what was passed before the part of the way that is looked at. -/
theorem Path.passed {q r : Point} (h : p.Path q ids r) {passed : List InstId} {left : List BlockId}
    (hroute : p.Route q.block (q.block :: left)) (hhere : (p.orderOf q.block).take q.index ⊆ passed)
    (hleft : ∀ c ∈ left, p.orderOf c ⊆ passed) : ∃ left', p.Route r.block (r.block :: left') ∧
      (p.orderOf r.block).take r.index ⊆ passed ++ ids ∧ ∀ c ∈ left', p.orderOf c ⊆ passed ++
      ids := by
  induction h generalizing passed left with
  | here q =>
    rw [append_nil]
    exact ⟨left, hroute, hhere, hleft⟩
  | @pass b k id ids q hid _ ih =>
    rw [append_cons passed id ids]
    refine ih hroute ?_ fun c hc => subset_append_of_subset_left _ (hleft c hc)
    rw [take_add_one, hid]
    exact append_subset.mpr
      ⟨subset_append_of_subset_left _ hhere, subset_append_right _ _⟩
  | @jump b c ids q hc _ ih =>
    refine ih (.edge hroute hc) (nil_subset _) fun d hd => ?_
    rcases mem_cons.mp hd with rfl | hd
    · rwa [take_length] at hhere
    · exact hleft d hd

/-- Where an active instruction stands among the active ones of its block. -/
theorem order_split (hb : p.block? b = some blk) {k : Nat} (hk : (p.orderOf b)[k]? = some id)
    (hi : p.inst? id = some i) (hact : i.active = true) : ∃ n, (p.order blk)[n]? = some i ∧
      ∀ (m : Nat) (j : Instruction), m < n → (p.order blk)[m]? = some j →
        ∃ x ∈ (p.orderOf b).take k, p.inst? x = some j := by
  have horder : p.orderOf b = blk.order := by rw [orderOf, hb]; rfl
  rw [horder] at hk ⊢
  have hsplit : blk.order = blk.order.take k ++ id :: blk.order.drop (k + 1) := by
    obtain ⟨hlt, rfl⟩ := List.getElem?_eq_some_iff.mp hk
    rw [getElem_cons_drop, take_append_drop]
  have hact' : p.order blk = ((blk.order.take k).filterMap p.inst?).filter (·.active) ++
      i :: ((blk.order.drop (k + 1)).filterMap p.inst?).filter (·.active) := by
    rw [order]
    conv_lhs => rw [hsplit]
    rw [filterMap_append, filterMap_cons_some hi, filter_append, filter_cons_of_pos hact]
  refine ⟨_, by rw [hact', getElem?_append_right (Nat.le_refl _), Nat.sub_self]; rfl,
    fun m j hm hj => ?_⟩
  rw [hact', getElem?_append_left hm] at hj
  obtain ⟨hj, -⟩ := mem_filter.mp (mem_of_getElem? hj)
  exact mem_filterMap.mp hj

/-- A check that succeeds is sound: whatever way control took to an active instruction that is no
phi, each instruction that it refers to, other than as the target of a branch, is active and was
passed on that way. -/
theorem check_sound (h : p.Orderly) (hcheck : p.check = .ok ()) {k : Nat}
    (hpath : p.Path ⟨entryBlock, 0⟩ ids ⟨b, k⟩) (hk : (p.orderOf b)[k]? = some i.id)
    (hi : p.inst? i.id = some i) (hact : i.active = true) (hphi : i.op ≠ .phi) {side : Side}
    (hside : i.isTarget side = false) (hslot : (i.slot side).inst? = some id) :
    id ∈ ids ∧ ∃ j, p.inst? id = some j ∧ j.active = true := by
  obtain ⟨left, hroute, hhere, hleft⟩ := hpath.passed .entry (nil_subset []) fun c hc => by cases hc
  rw [nil_append] at hhere hleft
  obtain ⟨blk, hb⟩ : ∃ blk, p.block? b = some blk := by
    cases hb : p.block? b with
    | none => simp [orderOf, hb] at hk
    | some blk => exact ⟨blk, rfl⟩
  obtain ⟨n, hn, hbefore⟩ := order_split hb hk hi hact
  obtain ⟨home, blk', m, j, hdom, hb', hm, hj, hjact, hsame⟩ :=
    h.operand_placed hcheck hb hn hphi hside hslot
  refine ⟨?_, j, hj, hjact⟩
  by_cases he : home = b
  · -- in the block itself the operand comes first
    subst he
    obtain rfl : blk' = blk := Option.some.inj (hb'.symm.trans hb)
    obtain ⟨x, hx, hxj⟩ := hbefore m j (hsame rfl) hm
    rw [← h.inst?_id hj, h.inst?_id hxj]
    exact hhere hx
  · -- every route passes the block of the operand, and this one has left it
    rcases mem_cons.mp (h.dominators hb hdom _ hroute) with hhome | hhome
    · exact absurd hhome he
    · have hmem := (h.map_id_sublist blk').subset (mem_map_of_mem (mem_of_getElem? hm))
      rw [h.inst?_id hj] at hmem
      refine hleft home hhome ?_
      rw [orderOf, hb']
      exact hmem

/-! ## A program made by hand -/

/-- Lists of dominators that every edge respects hold only blocks that are passed on every route. -/
theorem dominates_of_edges
    (hentry : ∀ blk ∈ p.blocks.toList, blk.id = entryBlock → ∀ d ∈ blk.dominators, d = entryBlock)
    (hedge : ∀ blk ∈ p.blocks.toList, ∀ c ∈ blk.children, ∀ blk' ∈ p.blocks.toList, blk'.id = c →
      ∀ d ∈ blk'.dominators, d = c ∨ d ∈ blk.dominators)
    (hid : ∀ {b blk}, p.block? b = some blk → blk.id = b) {d : BlockId} (hb : p.block? b = some blk)
    (hd : d ∈ blk.dominators) : p.Dominates d b := by
  intro bs hroute
  induction hroute generalizing blk with
  | entry => exact mem_singleton.mpr (hentry blk (mem_blocks hb) (hid hb) d hd)
  | @edge a c bs route hchild ih =>
    obtain ⟨blk₀, hb₀, hm⟩ : ∃ blk₀, p.block? a = some blk₀ ∧ c ∈ blk₀.children := by
      unfold childrenOf at hchild
      cases hb₀ : p.block? a with
      | none => simp [hb₀] at hchild
      | some blk₀ => exact ⟨blk₀, rfl, by simpa [hb₀] using hchild⟩
    rcases hedge blk₀ (mem_blocks hb₀) c hm blk (mem_blocks hb) (hid hb) d hd with rfl | hd₀
    · exact mem_cons_self ..
    · exact mem_cons_of_mem _ (ih hb₀ hd₀)

/-- A way through the whole of a block and on to a child. -/
theorem Path.through {q : Point} (hc : c ∈ p.childrenOf b) (rest : p.Path ⟨c, 0⟩ ids q) :
    p.Path ⟨b, 0⟩ (p.orderOf b ++ ids) q := by
  have hfrom : ∀ n k, k + n = (p.orderOf b).length → p.Path ⟨b, k⟩ ((p.orderOf b).drop k ++ ids)
    q := by
    intro n
    induction n with
    | zero =>
      intro k hk
      obtain rfl : k = (p.orderOf b).length := hk
      rw [drop_length, nil_append]
      exact .jump hc rest
    | succ n ih =>
      intro k hk
      have hlt : k < (p.orderOf b).length := by omega
      rw [← getElem_cons_drop hlt, cons_append]
      exact .pass (getElem?_eq_getElem hlt) (ih (k + 1) (by omega))
  exact hfrom _ 0 (Nat.zero_add _)

/-- A loop that counts an input down. Its lists of dominators are shorter than they could be, and a
retired instruction is listed in its body. -/
def countdown : Program where
  insts := #[
    { id := 1, op := .const, x := .literal 1 },
    { id := 2, op := .read, block := 1 },
    { id := 3, op := .phi, x := .inst 2, y := .inst 7, block := 2 },
    { id := 4, op := .cmp, x := .inst 3, y := .inst 1, block := 2 },
    { id := 5, op := .blt, x := .inst 4, y := .inst 9, block := 2 },
    { id := 6, op := .add, x := .inst 12, block := 3, active := false },
    { id := 7, op := .sub, x := .inst 3, y := .inst 1, block := 3 },
    { id := 8, op := .bra, x := .inst 3, block := 3 },
    { id := 9, op := .write, x := .inst 3, block := 4 },
    { id := 10, op := .halt, block := 4 }]
  blocks := #[
    { id := 0, kind := .entry, children := [1], dominators := [0], timeline := [.inst 1] },
    { id := 1, kind := .main, parents := [0], children := [2], dominators := [1, 0],
      timeline := [.inst 2] },
    { id := 2, kind := .loopHeader, join := .loop, parents := [1, 3], children := [3, 4],
      dominators := [2, 0], timeline := [.inst 3, .inst 4, .inst 5] },
    { id := 3, kind := .loopBody, parents := [2], children := [2], dominators := [3, 2, 0],
      timeline := [.inst 6, .inst 7, .inst 8] },
    { id := 4, kind := .exit, parents := [2], dominators := [4, 2],
      timeline := [.inst 9, .inst 10] }]
  versions := #[]
  diagnostics := #[]

theorem orderly_countdown : countdown.Orderly := by
  have hblock : ∀ n : Nat, n < 5 → (countdown.blocks[n]?).all (·.id == (n : Int)) = true := by
    decide
  have hinst : ∀ n : Nat, n < 10 → (countdown.insts[n]?).all (·.id == (n : Int) + 1) = true := by
    decide
  have hid : ∀ {n : Nat} {b : Block}, countdown.blocks[n]? = some b → b.id = n := by
    intro n b hb
    have := hblock n (Array.getElem?_eq_some_iff.mp hb).1
    simpa [hb] using this
  refine ⟨hid, fun {n i} hi => ?_, by decide, fun hb hd => ?_⟩
  · have := hinst n (Array.getElem?_eq_some_iff.mp hi).1
    simpa [hi] using this
  · exact dominates_of_edges (by decide) (by decide) (id_of_block? hid) hb hd

/-- In the second round of the loop, what the subtraction refers to was passed. -/
theorem check_sound_countdown : countdown.Orderly ∧ countdown.check = .ok () ∧
    ∃ ids, countdown.Path ⟨entryBlock, 0⟩ ids ⟨3, 1⟩ ∧ ids.count 7 = 1 ∧ (3 : InstId) ∈ ids ∧
      (1 : InstId) ∈ ids := by
  have hcheck : countdown.check = .ok () := by decide
  have hpath : countdown.Path ⟨entryBlock, 0⟩ _ ⟨3, 1⟩ :=
    .through (c := 1) (by decide) <| .through (c := 2) (by decide) <| .through (c := 3)
      (by decide) <|
      .through (c := 2) (by decide) <| .through (c := 3) (by decide) <|
        .pass (show (countdown.orderOf 3)[0]? = some 6 from rfl) (.here _)
  have hat : (countdown.orderOf 3)[1]? = some countdown.insts[6].id := by decide
  have hx : (countdown.insts[6].slot .x).inst? = some 3 := by decide
  have hy : (countdown.insts[6].slot .y).inst? = some 1 := by decide
  refine ⟨orderly_countdown, hcheck, _, hpath, by decide, ?_, ?_⟩
  · exact (check_sound orderly_countdown hcheck hpath hat (by decide) (by decide) (by decide)
      (by decide) hx).1
  · exact (check_sound orderly_countdown hcheck hpath hat (by decide) (by decide) (by decide)
      (by decide) hy).1

end Program

end SingleAssignment
