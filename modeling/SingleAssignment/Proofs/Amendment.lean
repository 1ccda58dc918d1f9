import Mathlib.Data.Bool.Basic
import Mathlib.Data.List.Find
import Mathlib.Data.List.Induction
import SingleAssignment.Proofs.Calls

/-!
# What is done for some variables

What is done for one variable does not concern the others: versions of it are added in a join and,
if no version was visible, in the first block with code (`Amends`). A version in that block is seen
only where none was seen before (`Amends.visible?`).

What is visible at the end of a block is the last version in the nearest dominator that has one
(`State.visible?_eq_findSome?`). Dominators are nested as long as calls make no other blocks
(`State.Chained`).
-/

namespace SingleAssignment.Builder

open Code
open Option (bind_some getD_some isSome_iff_exists map_eq_some_iff map_some)

/-! ## The version that is seen -/

namespace State

/-- The versions that are marked in a block, in order. -/
def marksOf (s : State) (b : BlockId) : List VersionId :=
  (s.timelineOf b).filterMap Slot.mark?

/-- Whether a version is one of a variable and stands for an active instruction. -/
def shows (s : State) (name : String) (v : VersionId) : Bool :=
  (s.versions[v]?).any fun a => a.var == name && s.isLive a.inst

/-- The last version of a variable in a block that stands for an active instruction. -/
def last? (s : State) (b : BlockId) (name : String) : Option VersionId :=
  (s.marksOf b).reverse.find? (s.shows name)

/-- No version stands for an instruction that is yet to come. -/
def Settled (s : State) : Prop :=
  ∀ a ∈ s.versions, a.inst ≤ s.insts.size

instance (s : State) : Decidable s.Settled :=
  inferInstanceAs (Decidable (∀ a ∈ s.versions, a.inst ≤ s.insts.size))

/-- The phis by age. -/
def phis (s : State) : List InstId :=
  (s.insts.toList.filter (·.op == .phi)).map (·.id)

variable {s t : State} {b d : BlockId} {name : String} {v : VersionId}

theorem lastOf_versionsOf (h : s.Tabled) (b : BlockId) (name : String) :
    s.lastOf (fun a => s.isLive a.inst) (s.versionsOf b name) = s.last? b name := by
  unfold lastOf last? marksOf
  rw [h, marks, ← List.filter_reverse, List.find?_filter]
  congr 1
  funext v
  cases hv : s.versions[v]? with
  | none => simp [shows, hv]
  | some a => simp [shows, hv, beq_eq_decide]

/-- The version that is visible at the end of a block is the last one in the nearest dominator that
has one. -/
theorem visible?_eq_findSome? (h : WellFormed s) (b : BlockId) (name : String) :
    s.visible? b name = (s.dominatorsOf b).findSome? (s.last? · name) := by
  cases hb : s.block? b with
  | none => simp [visible?, visibleWith, dominatorsOf, hb]
  | some blk =>
    obtain ⟨ds, hds⟩ := h.wired.doms hb
    have hdoms : s.dominatorsOf b = b :: ds := by rw [dominatorsOf, hb, map_some, hds, getD_some]
    rw [visible?, visibleWith_endOf hdoms, hdoms]
    simp only [lastOf_versionsOf h.listed.tabled]

theorem shows_iff : s.shows name v = true ↔
    ∃ a, s.versions[v]? = some a ∧ a.var = name ∧ s.isLive a.inst = true := by
  simp [shows, Option.any_eq_true]

theorem last?_eq_some (h : s.last? b name = some v) : v ∈ s.marksOf b ∧ s.shows name v = true :=
  ⟨List.mem_reverse.mp (List.mem_of_find?_eq_some h), List.find?_some h⟩

theorem last?_eq_none_of_versionsOf (hs : WellFormed s) (h : s.versionsOf b name = []) :
    s.last? b name = none := by
  rw [← lastOf_versionsOf hs.listed.tabled, h]
  rfl

/-- What is seen of a variable is alive. -/
theorem isLive_of_visible? (h : WellFormed s) (hv : s.visible? b name = some v) :
    ∃ a, s.versions[v]? = some a ∧ s.isLive a.inst = true ∧ s.visibleInst? b
      name = some a.inst := by
  have hseen := hv
  rw [visible?_eq_findSome? h] at hseen
  obtain ⟨d, -, hd⟩ := List.exists_of_findSome?_eq_some hseen
  obtain ⟨a, ha, -, hlive⟩ := shows_iff.mp (last?_eq_some hd).2
  exact ⟨a, ha, hlive, by simp [visibleInst?, hv, ha]⟩

theorem isLive_le (h : s.isLive b = true) : 0 < b ∧ b ≤ s.insts.size := by
  unfold isLive inst? at h
  split at h
  · cases hi : s.insts[(b - 1).toNat]? with
    | none =>
      rw [hi] at h
      cases h
    | some i =>
      obtain ⟨hlt, -⟩ := Array.getElem?_eq_some_iff.mp hi
      lia
  · cases h

end State

/-! ## Nested blocks -/

/-- The dominators of a block with code, other than the first one, are itself and those of a block
with code before it. -/
structure State.Chained (s : State) : Prop where
  entry : s.dominatorsOf entryBlock = [entryBlock]
  start : s.dominatorsOf startBlock = [startBlock, entryBlock]
  below : ∀ {b blk}, s.block? b = some blk → b ≠ entryBlock → b ≠ startBlock →
    ∃ ds, blk.dominators = b :: ds ∧ s.IsAbove b ds

/-- The blocks that calls make get the dominators of blocks with code, as a builder gave them
before. -/
def AsGiven (settings : Settings) (calls : List Call) : Prop :=
  ∀ before d after, calls = before ++ .newBlock d :: after → ∃ earlier, earlier <+: before ∧
    ∃ b t, b ≠ entryBlock ∧ dominators b (State.after settings earlier) = .ok d.dominators t

section Chained

variable {D : List BlockId → Prop} {s t : State} {b : BlockId}

open State

/-- All chains of dominators end in the first block with code and the block of the constants. -/
theorem State.Chained.exists_chain (h : s.Chained) (hb : (s.block? b).isSome)
    (hne : b ≠ entryBlock) :
    ∃ L, s.dominatorsOf b = L ++ [startBlock, entryBlock] ∧ startBlock ∉ L := by
  induction hn : b.toNat using Nat.strongRecOn generalizing b with
  | _ n ih =>
    by_cases hstart : b = startBlock
    · exact ⟨[], by rw [hstart, h.start, List.nil_append], List.not_mem_nil⟩
    · obtain ⟨blk, hb⟩ := isSome_iff_exists.mp hb
      obtain ⟨ds, hds, p, hp, hlt, hsome, hdoms⟩ := h.below hb hne hstart
      obtain ⟨P, hP⟩ := isSome_iff_exists.mp hsome
      obtain ⟨L, hL, hnot⟩ := ih p.toNat (by have := (lt_size_of_block? hP).1; lia) hsome hp rfl
      refine ⟨b :: L, ?_, fun hmem => ?_⟩
      · rw [dominatorsOf, hb, map_some, hds, getD_some, ← hdoms, hL, List.cons_append]
      · rcases List.mem_cons.mp hmem with he | hmem
        · exact hstart he.symm
        · exact hnot hmem

/-- The block above a block is where the rest of its chain of dominators starts. -/
theorem State.Chained.dominatorsOf_eq (h : s.Chained) (hw : Wired s) (hb : (s.block? b).isSome)
    (hne : b ≠ entryBlock) (hstart : b ≠ startBlock) :
    s.dominatorsOf b = b :: s.dominatorsOf (s.blockAbove b) := by
  obtain ⟨blk, hb⟩ := isSome_iff_exists.mp hb
  obtain ⟨ds, hds, p, -, -, hsome, hdoms⟩ := h.below hb hne hstart
  obtain ⟨P, hP⟩ := isSome_iff_exists.mp hsome
  obtain ⟨ds', hds'⟩ := hw.doms hP
  have hp : s.dominatorsOf p = p :: ds' := by rw [dominatorsOf, hP, map_some, hds', getD_some]
  have hall : s.dominatorsOf b = b :: s.dominatorsOf p := by
    rw [hdoms, ← hds, dominatorsOf, hb, map_some, getD_some]
  have habove : s.blockAbove b = p := by
    rw [blockAbove, hall, hp]
    rfl
  rw [habove, hall]

theorem Continues.chained (h : Continues D s t) (hw : Wired s)
    (hD : ∀ ds, D ds → ∃ p, p ≠ entryBlock ∧ (s.block? p).isSome ∧ s.dominatorsOf p = ds)
    (hs : s.Chained) : t.Chained := by
  refine ⟨(h.dominatorsOf hw.entry).trans hs.entry, (h.dominatorsOf hw.start).trans hs.start,
    fun {b blk} hb hne hstart => ?_⟩
  cases hb₀ : s.block? b with
  | some blk₀ =>
    obtain ⟨ds, hds, habove⟩ := hs.below hb₀ hne hstart
    obtain ⟨blk', hb', hd⟩ := h.kept hb₀
    cases hb.symm.trans hb'
    exact ⟨ds, hd.trans hds, h.isAbove habove⟩
  | none =>
    obtain ⟨ds, hds, hD' | habove⟩ := h.fresh hb hb₀
    · obtain ⟨p, hp, hsome, hdoms⟩ := hD ds hD'
      refine ⟨ds, hds, p, hp, ?_, h.isSome_block hsome, (h.dominatorsOf hsome).trans hdoms⟩
      -- a block that was there has a smaller number than one that was not
      obtain ⟨P, hP⟩ := isSome_iff_exists.mp hsome
      have hlt := (lt_size_of_block? hP).2
      have h0 := (lt_size_of_block? hb).1
      by_contra hge
      have hsize : b.toNat < s.blocks.size := by lia
      rw [block?, if_pos h0, Array.getElem?_eq_getElem hsize] at hb₀
      cases hb₀
    · exact ⟨ds, hds, habove⟩

theorem State.after_append (settings : Settings) (calls more : List Call) :
    State.after settings (calls ++ more) = more.foldl (fun s c => c.run s)
      (State.after settings calls) :=
  List.foldl_append

/-- Blocks keep their dominators for good. -/
theorem dominatorsOf_after {settings : Settings} {earlier calls : List Call} (h : earlier <+: calls)
    (hb : ((State.after settings earlier).block? b).isSome) :
    ((State.after settings calls).block? b).isSome ∧ (State.after settings calls).dominatorsOf
    b = (State.after settings earlier).dominatorsOf b := by
  obtain ⟨more, rfl⟩ := h
  induction more using List.reverseRecOn with
  | nil => exact ⟨by rwa [List.append_nil], by rw [List.append_nil]⟩
  | append_singleton more c ih =>
    have hc := c.continues (wellFormed_after settings (earlier ++ more))
    have hlast : State.after settings (earlier ++ (more ++ [c])) =
        c.run (State.after settings (earlier ++ more)) := by
      rw [← List.append_assoc, after_append]
      rfl
    rw [hlast]
    exact ⟨hc.isSome_block ih.1, (hc.dominatorsOf ih.1).trans ih.2⟩

theorem isSome_of_dominators {ds : List BlockId} (h : dominators b s = .ok ds t) :
    (s.block? b).isSome ∧ s.dominatorsOf b = ds := by
  have hspec : Yields (dominators b) s fun ds _ => (s.block? b).isSome ∧ s.dominatorsOf b = ds :=
    .bind (yields_block fun blk hb => .pure ⟨isSome_of_eq hb, by simp [dominatorsOf, hb]⟩)
  exact hspec ds t h

/-- Blocks are nested if they are made with dominators that a builder gave. -/
theorem chained_after (settings : Settings) {calls : List Call} (hcalls : AsGiven settings calls) :
    (State.after settings calls).Chained := by
  induction calls using List.reverseRecOn with
  | nil =>
    refine ⟨rfl, rfl, fun {b blk} hb hne hstart => ?_⟩
    rw [show State.after settings [] = .new settings from rfl, block?_new,
      if_neg (show b ≠ 0 from hne), if_neg (show b ≠ 1 from hstart)] at hb
    cases hb
  | append_singleton calls c ih =>
    rw [after_append]
    have hw := wellFormed_after settings calls
    refine (c.continues hw).chained hw.wired (fun ds hds => ?_) (ih fun before d after he => ?_)
    · cases c with
      | newBlock d =>
        cases hds
        obtain ⟨earlier, hpre, b, t, hne, hdoms⟩ := hcalls calls d [] rfl
        obtain ⟨hb, hds⟩ := isSome_of_dominators hdoms
        obtain ⟨hb', hds'⟩ := dominatorsOf_after hpre hb
        exact ⟨b, hne, hb', hds'.trans hds⟩
      | _ => exact hds.elim
    · exact hcalls before d (after ++ [c]) (by rw [he, List.append_assoc, List.cons_append])

end Chained

/-! ## What is added for some variables -/

/-- An instruction without the versions that depend on it. -/
def core (i : Instruction) : Instruction :=
  { i with deps := [] }

/-- A variable that nothing in the first two blocks says anything of got the value zero in the first
block with code. -/
structure Zeroed (s t : State) (name : String) : Prop where
  start : s.last? startBlock name = none
  entry : s.last? entryBlock name = none
  zero : ∃ v a, t.last? startBlock name = some v ∧ t.versions[v]? = some a ∧ t.IsNumber a.inst 0

/-- Versions of the variables `names` were added, in the blocks `bs` or as zeros in the first block
with code, and instructions, of which `new` are the phis. All else is as it was. -/
structure Amends (names : List String) (bs : List BlockId) (new : List InstId) (s t : State) :
    Prop where
  held : t.Settled
  version : ∀ {v : VersionId} {a}, s.versions[v]? = some a → t.versions[v]? = some a
  fresh : ∀ {v : VersionId} {a}, t.versions[v]? = some a → s.versions[v]? = some a ∨
    a.var ∈ names ∧ (a.block ∈ bs ∨ a.block = startBlock)
  inst : ∀ {id i}, s.inst? id = some i → i.op ≠ .empty → ∃ i', t.inst? id = some i' ∧
    core i' = core i
  live : ∀ {id : InstId}, id ≤ s.insts.size → t.isLive id = s.isLive id
  size : s.insts.size ≤ t.insts.size
  phis : t.phis = s.phis ++ new
  last : ∀ d n, t.last? d n = s.last? d n ∨ n ∈ names ∧ (d ∈ bs ∨ d = startBlock ∧ Zeroed s t n)

theorem filter_map_modify {α β : Type} {p : α → Bool} {g : α → β} {f : α → α} {l : List α} {k : Nat}
    (hf : ∀ a, l[k]? = some a → p (f a) = p a ∧ g (f a) = g a) :
    ((l.modify k f).filter p).map g = (l.filter p).map g := by
  induction l generalizing k with
  | nil => simp
  | cons a l ih =>
    cases k with
    | zero =>
      obtain ⟨hp, hg⟩ := hf a rfl
      rw [List.modify_zero_cons, List.filter_cons, List.filter_cons, hp]
      split
      · rw [List.map_cons, List.map_cons, hg]
      · rfl
    | succ k =>
      have ih := ih fun a' ha' => hf a' ha'
      rw [List.modify_succ_cons, List.filter_cons, List.filter_cons]
      split
      · rw [List.map_cons, List.map_cons, ih]
      · exact ih

namespace Amends

variable {names : List String} {bs : List BlockId} {new new' : List InstId}
  {s t u : State} {b : BlockId} {name : String}

open State

theorem isNumber (h : Amends names bs new s t) {id : InstId} {n : Int64} (hi : s.IsNumber id n) :
    t.IsNumber id n := by
  obtain ⟨i, hi, hop, hx⟩ := hi
  obtain ⟨i', hi', hcore⟩ := h.inst hi (by rw [hop]; intro he; cases he)
  exact ⟨i', hi', (congrArg Instruction.op hcore).trans hop,
    (congrArg Instruction.x hcore).trans hx⟩

theorem refl (hs : s.Settled) : Amends names bs [] s s :=
  ⟨hs, fun h => h, .inl, fun {_ i} hi _ => ⟨i, hi, rfl⟩, fun _ => rfl, Nat.le_refl _,
    (List.append_nil _).symm, fun _ _ => .inl rfl⟩

theorem mono (h : Amends names bs new s t) {names' : List String} {bs' : List BlockId}
    (hnames : names ⊆ names') (hbs : bs ⊆ bs') : Amends names' bs' new s t where
  held := h.held
  version := h.version
  fresh hv := (h.fresh hv).imp_right fun ⟨hn, hb⟩ => ⟨hnames hn, hb.imp_left fun hb => hbs hb⟩
  inst := h.inst
  live := h.live
  size := h.size
  phis := h.phis
  last d n := (h.last d n).imp_right fun ⟨hn, hd⟩ => ⟨hnames hn, hd.imp_left fun hd => hbs hd⟩

theorem trans (h : Amends names bs new s t) (h' : Amends names bs new' t u)
    (hentry : entryBlock ∉ bs) : Amends names bs (new ++ new') s u := by
  refine ⟨h'.held, fun hv => h'.version (h.version hv), fun {v a} hv => ?_, fun {id i} hi hop => ?_,
    fun {id} hid => ?_, Nat.le_trans h.size h'.size, ?_, fun d n => ?_⟩
  · exact (h'.fresh hv).elim h.fresh .inr
  · obtain ⟨i', hi', hcore⟩ := h.inst hi hop
    obtain ⟨i'', hi'', hcore'⟩ := h'.inst hi' (congrArg Instruction.op hcore ▸ hop)
    exact ⟨i'', hi'', hcore'.trans hcore⟩
  · rw [h'.live (by have := h.size; lia), h.live hid]
  · rw [h'.phis, h.phis, List.append_assoc]
  · rcases h.last d n with hsame | ⟨hn, hd | ⟨rfl, hz⟩⟩
    · rcases h'.last d n with hsame' | ⟨hn, hd | ⟨rfl, hz⟩⟩
      · exact .inl (hsame'.trans hsame)
      · exact .inr ⟨hn, .inl hd⟩
      · refine .inr ⟨hn, .inr ⟨rfl, hsame ▸ hz.start, ?_, hz.zero⟩⟩
        rcases h.last entryBlock n with he | ⟨-, he | ⟨he, -⟩⟩
        · exact he ▸ hz.entry
        · exact absurd he hentry
        · cases he
    · exact .inr ⟨hn, .inl hd⟩
    · obtain ⟨v, a, hv, ha, hnum⟩ := hz.zero
      rcases h'.last startBlock n with hsame' | ⟨-, hd' | ⟨-, hz'⟩⟩
      · exact .inr ⟨hn, .inr ⟨rfl, hz.start, hz.entry, v, a, hsame'.trans hv, h'.version ha,
          h'.isNumber hnum⟩⟩
      · exact .inr ⟨hn, .inl hd'⟩
      · cases hv.symm.trans hz'.start

/-! ### Where no version changes -/

/-- What no version sees: instructions are added and books kept. -/
theorem of_versions (hs : s.Settled) (hversions : t.versions = s.versions)
    (hmarks : ∀ b, t.marksOf b = s.marksOf b)
    (hinst : ∀ {id i}, s.inst? id = some i → i.op ≠ .empty → ∃ i', t.inst? id = some i' ∧
      core i' = core i)
    (hlive : ∀ {id : InstId}, id ≤ s.insts.size → t.isLive id = s.isLive id)
    (hsize : s.insts.size ≤ t.insts.size) (hphis : t.phis = s.phis ++ new) :
    Amends [] [] new s t := by
  refine ⟨fun a ha => ?_, fun h => hversions ▸ h, fun h => .inl (hversions ▸ h), hinst,
    hlive, hsize, hphis, fun d n => .inl ?_⟩
  · have := hs a (hversions ▸ ha)
    lia
  · have hshows : t.shows n = s.shows n := by
      funext v
      unfold shows
      rw [hversions]
      cases hv : s.versions[v]? with
      | none => rfl
      | some a => rw [Option.any_some, Option.any_some, hlive (hs a (Array.mem_of_getElem? hv))]
    rw [last?, last?, hmarks, hshows]

/-- Books that are no instruction, block or version. -/
theorem of_arenas (hs : s.Settled) (hinsts : t.insts = s.insts) (hblocks : t.blocks = s.blocks)
    (hversions : t.versions = s.versions) : Amends [] [] [] s t := by
  have hinst : ∀ id, t.inst? id = s.inst? id := fun id => by rw [inst?, inst?, hinsts]
  refine of_versions hs hversions (fun b => ?_) (fun {id i} hi _ => ⟨i, (hinst id).trans hi, rfl⟩)
    (fun {id} _ => ?_) (Nat.le_of_eq (by rw [hinsts]))
    (by rw [State.phis, State.phis, hinsts, List.append_nil])
  · rw [marksOf, timelineOf, block?, hblocks]
    rfl
  · rw [isLive, hinst]
    rfl

theorem modifyBlock (hs : s.Settled) {f : Block → Block} (hf : ∀ blk, s.block? b = some blk →
      (f blk).timeline.filterMap Slot.mark? = blk.timeline.filterMap Slot.mark?) :
    Amends [] [] [] s (s.modifyBlock b f) := by
  have hinsts : (s.modifyBlock b f).insts = s.insts := by
    unfold State.modifyBlock
    split <;> rfl
  refine of_versions hs (versions_modifyBlock s b f) (fun b' => ?_)
    (fun {id i} hi _ => ⟨i, (inst?_modifyBlock s b f id).trans hi, rfl⟩)
    (fun {id} _ => by rw [isLive, inst?_modifyBlock]; rfl) (Nat.le_of_eq (by rw [hinsts]))
    (by rw [State.phis, State.phis, hinsts, List.append_nil])
  unfold marksOf timelineOf
  rw [block?_modifyBlock]
  split
  · rename_i he
    subst he
    cases hb : s.block? b' with
    | none => rfl
    | some blk => exact hf blk hb
  · rfl

theorem record (hs : s.Settled) (b : BlockId) (e : Entry) : Amends [] [] [] s (s.record b e) :=
  modifyBlock hs fun _ _ => rfl

theorem addJoinVar (hs : s.Settled) (j : BlockId) (name : String) :
    Amends [] [] [] s (s.addJoinVar j name) :=
  modifyBlock hs fun _ _ => rfl

theorem modifyInst (hs : s.Settled) {id : InstId} {f : Instruction → Instruction}
    (hf : ∀ i, s.inst? id = some i → (f i).active = i.active ∧ ((f i).op == .phi) = (i.op == .phi) ∧
      (f i).id = i.id ∧ (i.op ≠ .empty → core (f i) = core i)) :
    Amends [] [] [] s (s.modifyInst id f) := by
  refine of_versions hs (versions_modifyInst s id f) (fun b => ?_) (fun {id' i} hi hop => ?_)
    (fun {id'} _ => ?_) ?_ ?_
  · rw [marksOf, timelineOf_modifyInst]
    rfl
  · rw [inst?_modifyInst]
    split
    · rename_i he
      subst he
      exact ⟨f i, by rw [hi]; rfl, (hf i hi).2.2.2 hop⟩
    · exact ⟨i, hi, rfl⟩
  · unfold isLive
    rw [inst?_modifyInst]
    split
    · rename_i he
      subst he
      cases hi : s.inst? id' with
      | none => rfl
      | some i => exact (hf i hi).1
    · rfl
  · unfold State.modifyInst
    split
    · exact Nat.le_of_eq (Array.size_modify ..).symm
    · exact Nat.le_refl _
  · unfold State.phis State.modifyInst
    rw [List.append_nil]
    split
    · rename_i hpos
      rw [Array.toList_modify]
      refine filter_map_modify fun i hi => ?_
      rw [Array.getElem?_toList] at hi
      obtain ⟨-, hphi, hid, -⟩ := hf i (by rw [State.inst?, if_pos hpos, hi])
      exact ⟨hphi, hid⟩
    · rfl

theorem depend (hs : s.Settled) (v : VersionId) : Amends [] [] [] s (s.depend v) := by
  unfold State.depend
  cases s.versions[v]? with
  | none => exact .refl hs
  | some ver =>
    dsimp only
    generalize ver.history ++ [ver.inst] = ids
    induction ids generalizing s with
    | nil => exact .refl hs
    | cons id ids ih =>
      have hone : Amends [] [] [] s (s.modifyInst id (·.addDep ver.ref)) :=
        modifyInst hs fun i _ => by
        unfold Instruction.addDep
        split
        · exact ⟨rfl, rfl, rfl, fun _ => rfl⟩
        · exact ⟨rfl, rfl, rfl, fun _ => rfl⟩
      exact hone.trans (ih hone.held) List.not_mem_nil

/-- A new instruction at a position of a timeline. -/
theorem insertNew (hs : s.Settled) (b : BlockId) (d : Draft) (pos : Nat) :
    Amends [] [] (if d.op = .phi then [(s.insertNew b d pos).1] else []) s
      (s.insertNew b d pos).2 := by
  have halloc : Amends [] [] (if d.op = .phi then [(s.alloc b d).1] else []) s (s.alloc b d).2 := by
    have hold : ∀ {id : InstId}, id ≤ s.insts.size → (s.alloc b d).2.inst? id = s.inst? id := by
      intro id hid
      rw [show (s.alloc b d).2.inst? id = _ from inst?_push s _ id, if_neg (by lia)]
    refine of_versions hs rfl (fun _ => rfl) (fun {id i} hi _ => ⟨i, ?_, rfl⟩)
      (fun {id} hid => by rw [isLive, hold hid]; rfl) ?_ ?_
    · refine (hold ?_).trans hi
      by_contra hlt
      rw [inst?_eq_none_of_size_lt (by lia)] at hi
      cases hi
    · show s.insts.size ≤ (s.insts.push _).size
      rw [Array.size_push]
      lia
    · show ((s.insts.push _).toList.filter _).map _ = _
      rw [Array.toList_push, List.filter_append, List.map_append, State.phis]
      congr 1
      by_cases hop : d.op = .phi <;> simp [hop, alloc]
  have hput : Amends [] [] [] (s.alloc b d).2 (s.insertNew b d pos).2 :=
    modifyBlock halloc.held fun blk _ => blk.marks_insertSlot pos _
  have := halloc.trans hput List.not_mem_nil
  rwa [List.append_nil] at this

theorem place (h : WellFormed s) (hs : s.Settled) (b : BlockId) {d : Draft}
    (hd : d.op ≠ .phi) (pos : Nat) : Amends [] [] [] s (s.place b d pos).2 := by
  have hnew : ∀ {s : State}, s.Settled → Amends [] [] [] s (s.insertNew b d pos).2 := by
    intro s hs
    have := insertNew hs b d pos
    rwa [if_neg hd] at this
  unfold State.place
  cases hp : (s.block? b).bind (·.placeholder) with
  | none => exact hnew hs
  | some p =>
    dsimp only
    split
    · exact hnew hs
    · rw [← State.clear]
      have hclear : Amends [] [] [] s (s.clear b) := modifyBlock hs fun _ _ => rfl
      obtain ⟨i, hi, -, hblank⟩ := h.known.holder hp
      have hi' : (s.clear b).inst? p = some i := (s.inst?_clear b p).trans hi
      rw [hi', Option.any_some]
      split
      · rename_i hop
        rw [beq_iff_eq] at hop
        rw [overwrite_eq]
        have hfill : Amends [] [] [] (s.clear b) ((s.clear b).modifyInst p d.refill) := by
          refine modifyInst hclear.held fun j hj => ?_
          cases hi'.symm.trans hj
          refine ⟨(hblank hop).2.2.symm, ?_, rfl, fun hne => absurd hop hne⟩
          rw [hop]
          exact beq_eq_false_iff_ne.mpr hd
        have hmove := modifyBlock (b := b) hfill.held fun blk _ => blk.marks_moveSlot p pos
        exact (hclear.trans hfill List.not_mem_nil).trans hmove List.not_mem_nil
      · exact hclear.trans (hnew hclear.held) List.not_mem_nil

theorem const (h : WellFormed s) (hs : s.Settled) (n : Int64) :
    Amends [] [] [] s (s.const n).2 ∧ (s.const n).2.IsNumber (s.const n).1.id n := by
  refine ⟨?_, (h.const n).2.1⟩
  unfold State.const
  cases (s.entriesOf entryBlock).find? fun e => e.op == .const && e.x == .literal n &&
    s.isLive e.id with
  | some e => exact .refl hs
  | none =>
    have hphi : ({ op := .const, x := .literal n } : Draft).op ≠ .phi := by
      intro he
      cases he
    have hput := place h hs entryBlock hphi (s.endOf entryBlock)
    exact hput.trans (record hput.held entryBlock _) List.not_mem_nil

/-! ### A new version -/

section AddVersion

variable {a : Version} {pos : Nat} {blk : Block}

theorem marksOf_addVersion (hb : s.block? a.block = some blk) (b : BlockId) :
    (s.addVersion a pos).2.marksOf b =
      if b = a.block then ((s.timelineOf a.block).take pos).filterMap Slot.mark? ++
        s.versions.size :: ((s.timelineOf a.block).drop pos).filterMap Slot.mark?
      else s.marksOf b := by
  unfold marksOf
  rw [timelineOf_addVersion hb]
  split
  · rw [List.filterMap_append]
    rfl
  · rfl

theorem mem_marksOf (h : Listed s) {v : VersionId} :
    v ∈ s.marksOf b ↔ ∃ a, s.versions[v]? = some a ∧ a.block = b := by
  have hmem : v ∈ s.marksOf b ↔ .mark v ∈ s.timelineOf b := by
    unfold marksOf
    rw [List.mem_filterMap]
    constructor
    · rintro ⟨slot, hslot, hv⟩
      cases slot with
      | inst id => cases hv
      | mark w =>
        cases hv
        exact hslot
    · exact fun hslot => ⟨_, hslot, rfl⟩
  rw [hmem, h.mem_iff, ownerOf, map_eq_some_iff]

theorem lt_of_mem_marksOf (h : Listed s) {v : VersionId} (hv : v ∈ s.marksOf b) :
    v < s.versions.size := by
  obtain ⟨a, ha, -⟩ := (mem_marksOf h).mp hv
  exact (Array.getElem?_eq_some_iff.mp ha).1

theorem shows_addVersion {n : String} {v : VersionId} (hv : v < s.versions.size) :
    (s.addVersion a pos).2.shows n v = s.shows n v := by
  unfold shows isLive
  simp only [versions_addVersion, if_neg (Nat.ne_of_lt hv), inst?_addVersion]

theorem shows_addVersion_self (n : String) :
    (s.addVersion a pos).2.shows n s.versions.size = (a.var == n && s.isLive a.inst) := by
  unfold shows isLive
  simp only [versions_addVersion, if_true, inst?_addVersion, Option.any_some]

theorem find?_addVersion (h : Listed s) (n : String) {l : List VersionId} (hl : l ⊆ s.marksOf b) :
    l.reverse.find? ((s.addVersion a pos).2.shows n) = l.reverse.find? (s.shows n) := by
  refine List.find?_congr fun v hv => ?_
  exact shows_addVersion (lt_of_mem_marksOf h (hl (List.mem_reverse.mp hv)))

theorem marksOf_split (pos : Nat) (b : BlockId) :
    ((s.timelineOf b).take pos).filterMap Slot.mark? ++ ((s.timelineOf b).drop pos).filterMap
    Slot.mark? = s.marksOf b := by
  rw [← List.filterMap_append, List.take_append_drop]
  rfl

/-- A version changes what is seen of its variable in its block, and nothing else. -/
theorem last?_addVersion (h : Listed s) (hb : s.block? a.block = some blk) {n : String}
    (hne : b ≠ a.block ∨ n ≠ a.var) : (s.addVersion a pos).2.last? b n = s.last? b n := by
  unfold last?
  rw [marksOf_addVersion hb]
  split
  · rename_i he
    subst he
    have hno : (s.addVersion a pos).2.shows n s.versions.size = false := by
      rw [shows_addVersion_self, beq_false_of_ne (hne.resolve_left fun h => h rfl).symm,
        Bool.false_and]
    have hsplit := @marksOf_split s pos a.block
    rw [List.reverse_append, List.reverse_cons, List.append_assoc, List.find?_append,
      List.find?_append, List.find?_singleton, hno, if_neg Bool.false_ne_true, Option.none_or,
      ← List.find?_append, ← List.reverse_append, hsplit, find?_addVersion h n fun _ hv => hv]
  · exact find?_addVersion h n fun _ hv => hv

/-- A version that is the last of its variable in its block is seen there. -/
theorem last?_addVersion_self (h : Listed s) (hb : s.block? a.block = some blk)
    (hlive : s.isLive a.inst = true)
    (hafter : ∀ v ∈ ((s.timelineOf a.block).drop pos).filterMap Slot.mark?,
      s.shows a.var v = false) :
    (s.addVersion a pos).2.last? a.block a.var = some s.versions.size := by
  unfold last?
  have hself : (s.addVersion a pos).2.shows a.var s.versions.size = true := by
    rw [shows_addVersion_self, beq_self_eq_true, hlive, Bool.and_self]
  have hdrop : (((s.timelineOf a.block).drop pos).filterMap Slot.mark?).reverse.find?
      ((s.addVersion a pos).2.shows a.var) = none := by
    rw [find?_addVersion h a.var (b := a.block), List.find?_eq_none]
    · exact fun v hv => Bool.not_eq_true _ ▸ hafter v (List.mem_reverse.mp hv)
    · exact marksOf_split (s := s) pos a.block ▸ List.subset_append_right _ _
  rw [marksOf_addVersion hb, if_pos rfl, List.reverse_append, List.reverse_cons, List.append_assoc,
    List.find?_append, hdrop, Option.none_or, List.singleton_append, List.find?_cons_of_pos hself]

/-- A version that is put at the end of its block is the last one of its variable there. -/
theorem last?_addVersion_end (h : Listed s) (hb : s.block? a.block = some blk)
    (hlive : s.isLive a.inst = true) :
    (s.addVersion a (s.endOf a.block)).2.last? a.block a.var = some s.versions.size :=
  last?_addVersion_self h hb hlive fun v hv => by
    rw [endOf, List.drop_length] at hv
    cases hv

theorem addVersion (h : WellFormed s) (hs : s.Settled) (hb : s.block? a.block = some blk)
    (ha : a.inst ≤ s.insts.size) (hwhere : a.block ∈ bs ∨ a.block = startBlock ∧
      pos = s.endOf startBlock ∧ s.last? startBlock a.var = none ∧ s.last? entryBlock a.var = none ∧
        s.isLive a.inst = true ∧
      s.IsNumber a.inst 0) : Amends [a.var] bs [] s (s.addVersion a pos).2 := by
  have hinsts : (s.addVersion a pos).2.insts = s.insts := by
    unfold State.addVersion State.modifyBlock
    dsimp only
    split <;> rfl
  have hinst := s.inst?_addVersion a pos
  refine ⟨fun c hc => ?_, fun {v c} hc => ?_, fun {v c} hc => ?_,
    fun {id i} hi _ => ⟨i, (hinst id).trans hi, rfl⟩,
    fun {id} _ => by rw [isLive, hinst]; rfl, Nat.le_of_eq (by rw [hinsts]),
    by rw [State.phis, State.phis, hinsts, List.append_nil], fun d n => ?_⟩
  · obtain ⟨v, hv⟩ := Array.mem_iff_getElem?.mp hc
    rw [hinsts]
    rw [versions_addVersion] at hv
    split at hv
    · cases hv
      exact ha
    · exact hs c (Array.mem_of_getElem? hv)
  · rw [versions_addVersion, if_neg (Nat.ne_of_lt (Array.getElem?_eq_some_iff.mp hc).1), hc]
  · rw [versions_addVersion] at hc
    split at hc
    · cases hc
      exact .inr ⟨List.mem_singleton.mpr rfl, hwhere.imp_right (·.1)⟩
    · exact .inl hc
  · by_cases hsame : d = a.block ∧ n = a.var
    · obtain ⟨rfl, rfl⟩ := hsame
      refine .inr ⟨List.mem_singleton.mpr rfl, hwhere.imp_right ?_⟩
      rintro ⟨hstart, hpos, hno, hno', hlive, i, hi, hop⟩
      refine ⟨hstart, hno, hno', s.versions.size, a, ?_, ?_, i, (hinst _).trans hi, hop⟩
      · rw [hpos, ← hstart]
        exact last?_addVersion_end h.listed hb hlive
      · rw [versions_addVersion, if_pos rfl]
    · refine .inl (last?_addVersion h.listed hb ?_)
      by_cases hd : d = a.block
      · exact .inr fun hn => hsame ⟨hd, hn⟩
      · exact .inl hd

end AddVersion

/-! ### What is seen after it -/

/-- Where no block of the chain got a version, the version that was seen is still seen; where none
was, it may now be a zero. -/
theorem visible? (h : Amends names bs new s t) (name : String) (ht : Advances s t)
    (hw : WellFormed s) (hr : s.Chained) (hb : (s.block? b).isSome)
    (hbs : ∀ d ∈ bs, d ∉ s.dominatorsOf b) :
    t.visible? b name = s.visible? b name ∨ s.visible? b name = none ∧ name ∈ names ∧
      ∃ v a, t.visible? b name = some v ∧ t.versions[v]? = some a ∧ t.IsNumber a.inst 0 := by
  rw [visible?_eq_findSome? hw, visible?_eq_findSome? ht.wellFormed, ht.dominatorsOf_eq]
  have hsame : ∀ d ∈ s.dominatorsOf b, d ≠ startBlock → t.last? d name = s.last? d name := by
    intro d hd hne
    rcases h.last d name with hl | ⟨-, hmem | ⟨he, -⟩⟩
    · exact hl
    · exact absurd hd (hbs d hmem)
    · exact absurd he hne
  by_cases hentry : b = entryBlock
  · subst hentry
    rw [hr.entry] at hsame ⊢
    refine .inl (View.findSome?_congr fun d hd => hsame d hd ?_)
    rw [List.mem_singleton.mp hd]
    intro he
    cases he
  · obtain ⟨L, hL, hnot⟩ := hr.exists_chain hb hentry
    have hfar : L.findSome? (t.last? · name) = L.findSome? (s.last? · name) :=
      View.findSome?_congr fun d hd => hsame d (by rw [hL]; exact List.mem_append_left _ hd)
        fun he => hnot (he ▸ hd)
    have hentry' : t.last? entryBlock name = s.last? entryBlock name :=
      hsame _ (by rw [hL]; simp) (by intro he; cases he)
    simp only [hL, List.findSome?_append, List.findSome?_cons, List.findSome?_nil, hfar, hentry']
    rcases h.last startBlock name with hl | ⟨hn, hmem | ⟨-, hz⟩⟩
    · exact .inl (by rw [hl])
    · exact absurd (by rw [hL]; simp) (hbs _ hmem)
    · obtain ⟨v, a, hv, ha, hnum⟩ := hz.zero
      rw [hz.start, hz.entry, hv]
      cases L.findSome? (s.last? · name) with
      | some w => exact .inl rfl
      | none => exact .inr ⟨rfl, hn, v, a, rfl, ha, hnum⟩

/-- Nothing changes for a variable that is not concerned. -/
theorem visible?_of_not_mem (h : Amends names bs new s t) (ht : Advances s t) (hw : WellFormed s)
    (hn : name ∉ names) (b : BlockId) : t.visible? b name = s.visible? b name ∧ t.visibleInst? b
    name = s.visibleInst? b name := by
  have hsame : t.visible? b name = s.visible? b name := by
    rw [visible?_eq_findSome? hw, visible?_eq_findSome? ht.wellFormed, (ht.dominatorsOf_eq b)]
    refine View.findSome?_congr fun d _ => ?_
    exact (h.last d name).resolve_right fun hc => hn hc.1
  refine ⟨hsame, ?_⟩
  rw [visibleInst?, visibleInst?, hsame]
  cases hv : s.visible? b name with
  | none => rfl
  | some v =>
    obtain ⟨a, ha, -⟩ := isLive_of_visible? hw hv
    rw [bind_some, bind_some, ha, h.version ha]

end Amends

end SingleAssignment.Builder
