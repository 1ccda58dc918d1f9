import SingleAssignment.Proofs.Amendment

/-!
# Where the paths of an `if` meet

A join is reached from the ends of two blocks. What the closing of an `if` leaves there is what came
along the two edges: the value that both have, or a phi of the two (`reconcileIf_merges`). It is
said of every state that calls of a builder lead to, as long as its blocks are nested
(`State.Chained`) and no version stands for an instruction that is yet to come (`State.Settled`).
-/

namespace SingleAssignment.Builder

open Code
open Option (bind_eq_some_iff bind_none bind_some getD_some isSome_iff_exists isSome_map
    map_eq_some_iff map_some not_isSome_iff_eq_none)

/-! ## Merging a variable -/

/-- The instruction holds a variable at the end of a block, or it is the constant 0 and no version
of the variable was visible there. -/
def Arrives (s t : State) (b : BlockId) (name : String) (x : InstId) : Prop :=
  s.visibleInst? b name = some x ∨ s.visible? b name = none ∧ t.IsNumber x 0

/-- What two values are merged to at a join: the value itself where they agree, or else a phi of the
join that takes them from its first and its second parent. -/
def State.IsMerger (s : State) (j : BlockId) (x y id : InstId) : Prop :=
  if x = y then id = x
  else ∃ i, s.inst? id = some i ∧ i.op = .phi ∧ i.active = true ∧ i.block = j ∧
    i.x = .inst x ∧ i.y = .inst y

section Merge

variable {s t : State} {b j : BlockId} {name : String}

open State

theorem isLive_of_isNumber (h : WellFormed s) {id : InstId} {n : Int64} (hi : s.IsNumber id n) :
    s.isLive id = true := by
  obtain ⟨i, hi, hop, -⟩ := hi
  rw [isLive, hi]
  exact (h.known.const hi hop).2.1

/-- A variable is made zero where the first two blocks say nothing of it. -/
theorem amends_implicitZero (h : WellFormed s) (hs : s.Settled)
    (hstart : s.last? startBlock name = none) (hentry : s.last? entryBlock name = none)
    (cause : Option ZeroCause) :
    Amends [name] [] [] s (s.implicitZero b name cause).2 ∧ ∃ a,
      (s.implicitZero b name cause).2.versions[(s.implicitZero b name cause).1]? = some a ∧
      (s.implicitZero b name cause).2.IsNumber a.inst 0 ∧
      (s.implicitZero b name cause).2.isLive a.inst = true ∧ a.number = 0 ∧
      (s.implicitZero b name cause).2.last? startBlock name = some (s.implicitZero b name cause).1 ∧
      s.versions[(s.implicitZero b name cause).1]? = none := by
  obtain ⟨hconst, hz⟩ := Amends.const h hs 0
  have hadv := (h.const 0).1
  have hlast : ∀ d, s.last? d name = none → (s.const 0).2.last? d name = none := by
    intro d hd
    rcases hconst.last d name with hl | ⟨hn, -⟩
    · exact hl.trans hd
    · cases hn
  have hlast₁ := hlast _ hstart
  have hlast₂ := hlast _ hentry
  unfold State.implicitZero
  dsimp only
  generalize s.const 0 = r at hconst hz hadv hlast₁ hlast₂ ⊢
  obtain ⟨z, t⟩ := r
  dsimp only at hconst hz hadv hlast₁ hlast₂ ⊢
  have hlive := isLive_of_isNumber hadv.wellFormed hz
  obtain ⟨blk, hblk⟩ := isSome_iff_exists.mp hadv.wellFormed.wired.start
  have hadd : Amends [name] [] [] t (t.addVersion
      { var := name, number := 0, inst := z.id, block := startBlock, src := z.src }
      (t.endOf startBlock)).2 :=
    .addVersion (a := { var := name, number := 0, inst := z.id, block := startBlock, src := z.src })
      hadv.wellFormed hconst.held hblk (isLive_le hlive).2
      (.inr ⟨rfl, rfl, hlast₁, hlast₂, hlive, hz⟩)
  have hnew := (t.versions_addVersion
    { var := name, number := 0, inst := z.id, block := startBlock, src := z.src }
    (t.endOf startBlock) t.versions.size).trans (if_pos rfl)
  have hshown : (t.addVersion { var := name, number := 0, inst := z.id, block := startBlock,
                                src := z.src }
      (t.endOf startBlock)).2.last? startBlock name = some t.versions.size :=
    Amends.last?_addVersion_end (a := { var := name, number := 0, inst := z.id, block := startBlock,
                                        src := z.src })
      hadv.wellFormed.listed hblk hlive
  have hold : s.versions[t.versions.size]? = none := by
    cases hv : s.versions[t.versions.size]? with
    | none => rfl
    | some a => exact absurd (Array.getElem?_eq_some_iff.mp (hconst.version hv)).1 (Nat.lt_irrefl _)
  rw [show (t.addVersion { var := name, number := 0, inst := z.id, block := startBlock,
                           src := z.src }
    (t.endOf startBlock)).1 = t.versions.size from rfl]
  generalize (t.addVersion { var := name, number := 0, inst := z.id, block := startBlock,
                             src := z.src }
    (t.endOf startBlock)).2 = u at hadd hnew hshown ⊢
  have hdep := Amends.depend hadd.held t.versions.size
  -- what follows only keeps books
  have hall : ∀ {w : State}, Amends [] [] [] (u.depend t.versions.size) w →
    Amends [name] [] [] s w ∧ ∃ a, w.versions[t.versions.size]? = some a ∧ w.IsNumber a.inst 0 ∧
    w.isLive a.inst = true ∧ a.number = 0 ∧
        w.last? startBlock name = some t.versions.size ∧ s.versions[t.versions.size]? = none := by
    intro w hw
    have hrest := hdep.trans hw List.not_mem_nil
    have hfrom := hadd.trans (hrest.mono (List.nil_subset _) (List.nil_subset _)) List.not_mem_nil
    have hsame := (hrest.last startBlock name).resolve_right fun hn => List.not_mem_nil hn.1
    exact ⟨(hconst.mono (List.nil_subset _) (List.nil_subset _)).trans hfrom List.not_mem_nil, _,
      hrest.version hnew, hfrom.isNumber hz, (hfrom.live (isLive_le hlive).2).trans hlive, rfl,
      hsame.trans hshown, hold⟩
  cases cause with
  | none => exact hall (.refl hdep.held)
  | some why => exact hall (.of_arenas hdep.held rfl rfl rfl)

/-- A variable that nothing is seen of has no version in the first blocks. -/
theorem State.Chained.unseen (hr : s.Chained) (h : WellFormed s) (hb : (s.block? b).isSome)
    (hne : b ≠ entryBlock) (hv : s.visible? b name = none) : s.last? startBlock name = none ∧
    s.last? entryBlock name = none := by
  rw [visible?_eq_findSome? h] at hv
  obtain ⟨L, hL, -⟩ := hr.exists_chain hb hne
  have hlast : ∀ d ∈ [startBlock, entryBlock], s.last? d name = none := fun d hd =>
    List.findSome?_eq_none_iff.mp hv d (hL ▸ List.mem_append_right _ hd)
  exact ⟨hlast startBlock (by simp), hlast entryBlock (by simp)⟩

/-- A variable is read as what is visible, or is made zero. -/
theorem amends_readAtEnd (h : WellFormed s) (hr : s.Chained) (hs : s.Settled)
    (hb : (s.block? b).isSome) (hne : b ≠ entryBlock) (name : String) (cause : Option ZeroCause) :
    Amends [name] [] [] s (s.readAtEnd b name cause).2 ∧
      Arrives s (s.readAtEnd b name cause).2 b name (s.readAtEnd b name cause).1.id ∧
      (s.readAtEnd b name cause).2.isLive (s.readAtEnd b name cause).1.id = true := by
  unfold State.readAtEnd
  rw [if_neg hne]
  cases hv : s.visible? b name with
  | some c =>
    obtain ⟨a, ha, hlive, hinst⟩ := isLive_of_visible? h hv
    have hid : (s.readVersion b name c).id = a.inst := by rw [readVersion, ha]
    dsimp only
    rw [hid]
    exact ⟨.refl hs, .inl hinst, hlive⟩
  | none =>
    obtain ⟨hstart, hentry⟩ := hr.unseen h hb hne hv
    obtain ⟨ham, a, ha, hnum, hlive, -⟩ := amends_implicitZero (b := b) h hs hstart hentry cause
    dsimp only
    generalize s.implicitZero b name cause = r at ham ha hnum hlive ⊢
    obtain ⟨c, t⟩ := r
    dsimp only at ham ha hnum hlive ⊢
    have hid : (t.readVersion b name c).id = a.inst := by rw [readVersion, ha]
    rw [hid]
    exact ⟨ham, .inr ⟨hv, hnum⟩, hlive⟩

/-- A new phi. -/
theorem amends_emitPhi (h : WellFormed s) (hs : s.Settled) (hj : (s.block? j).isSome)
    (x y : Value) :
    Amends [] [] [(s.emitPhi j x y).1.id] s (s.emitPhi j x y).2 ∧
      ∃ i, (s.emitPhi j x y).2.inst? (s.emitPhi j x y).1.id = some i ∧ i.op = .phi ∧
        i.active = true ∧ i.block = j ∧ i.x = x.operand ∧ i.y = y.operand := by
  obtain ⟨blk, hj⟩ := isSome_iff_exists.mp hj
  have hp := h.insertNew (d := ⟨.phi, x.operand, y.operand, x.src, y.src⟩) hj
    (Nat.le_refl _) fun _ => rfl
  have hput := Amends.insertNew hs j ⟨.phi, x.operand, y.operand, x.src, y.src⟩ (s.leadingRun j)
  obtain ⟨i, hi, hop, hx, hy, hblock, hactive⟩ := hp.inst
  refine ⟨?_, i, ?_, hop, hactive, hblock, hx, hy⟩
  · have := hput.trans (.record hput.held j ⟨.phi, (s.emitPhi j x y).1.id, x.operand,
      y.operand, {}⟩) List.not_mem_nil
    rwa [if_pos rfl, List.append_nil] at this
  · exact (inst?_modifyBlock ..).trans ((hi _).trans (if_pos rfl))

/-- A version that is changed as soon as it is made. -/
theorem addVersion_modifyVersion (s : State) {a : Version} (a' : Version) {f : Version → Version}
    (pos : Nat) (hf : f a = a') (hblock : a'.block = a.block) (hvar : a'.var = a.var) :
    (s.addVersion a pos).2.modifyVersion (s.addVersion a pos).1 f = (s.addVersion a' pos).2 := by
  have hpush : (s.versions.push a).modify s.versions.size f = s.versions.push a' := by
    refine Array.ext_getElem? fun k => ?_
    rw [Array.getElem?_modify, Array.getElem?_push, Array.getElem?_push]
    by_cases hk : k = s.versions.size
    · rw [if_pos hk.symm, if_pos hk, if_pos hk, map_some, hf]
    · rw [if_neg (Ne.symm hk), if_neg hk, if_neg hk]
  unfold State.addVersion State.modifyVersion State.modifyBlock
  dsimp only
  rw [hblock, hvar]
  split
  · rw [hpush]
  · rw [hpush]

theorem visible?_of_last? (h : WellFormed s) (hj : (s.block? j).isSome) {v : VersionId}
    (hl : s.last? j name = some v) : s.visible? j name = some v := by
  obtain ⟨blk, hj⟩ := isSome_iff_exists.mp hj
  obtain ⟨ds, hds⟩ := h.wired.doms hj
  rw [visible?_eq_findSome? h, dominatorsOf, hj, map_some, hds, getD_some, List.findSome?_cons, hl]

/-- A head of a variable that a join has no version of is what is seen there. -/
theorem amends_addHead (h : WellFormed s) (hs : s.Settled) (hj : (s.block? j).isSome)
    (hne : j ≠ entryBlock) (hnone : s.versionsOf j name = []) {a : Version} (hvar : a.var = name)
    (hblock : a.block = j) (hlive : s.isLive a.inst = true) :
    Amends [name] [j] [] s ((s.addVersion a (s.leadingRun j)).2.depend s.versions.size) ∧
      ((s.addVersion a (s.leadingRun j)).2.depend s.versions.size).last? j
      name = some s.versions.size ∧
        ((s.addVersion a (s.leadingRun j)).2.depend s.versions.size).versions[s.versions.size]? =
        some a := by
  subst hvar hblock
  obtain ⟨blk, hblk⟩ := isSome_iff_exists.mp hj
  have hadd : Amends [a.var] [a.block] [] s (s.addVersion a (s.leadingRun a.block)).2 :=
    .addVersion h hs hblk (isLive_le hlive).2 (.inl (List.mem_singleton.mpr rfl))
  have hdep := Amends.depend hadd.held s.versions.size
  refine ⟨hadd.trans (hdep.mono (List.nil_subset _) (List.nil_subset _)) ?_, ?_, ?_⟩
  · exact fun he => hne (List.mem_singleton.mp he).symm
  · rcases hdep.last a.block a.var with hl | ⟨hn, -⟩
    · refine hl.trans (Amends.last?_addVersion_self h.listed hblk hlive fun v hv => ?_)
      by_contra hshow
      obtain ⟨c, hc, hcv, -⟩ := shows_iff.mp (Bool.eq_true_of_not_eq_false hshow)
      have hmem : v ∈ s.marksOf a.block :=
        Amends.marksOf_split (s := s) (s.leadingRun a.block) a.block ▸ List.mem_append_right _ hv
      obtain ⟨c', hc', hb⟩ := (Amends.mem_marksOf h.listed).mp hmem
      cases hc.symm.trans hc'
      have := h.mem_versionsOf.mpr ⟨c, hc, hb, hcv⟩
      rw [hnone] at this
      cases this
    · cases hn
  · exact hdep.version ((s.versions_addVersion ..).trans (if_pos rfl))

theorem head?_of_versionsOf (hnone : s.versionsOf j name = []) : s.head? j name = none := by
  rw [head?, hnone]
  rfl

/-- Two values are merged at a join that has no version of the variable. -/
theorem amends_merge (h : WellFormed s) (hr : s.Chained) (hs : s.Settled) (hj : (s.block? j).isSome)
    (hne : j ≠ entryBlock) (hstart : j ≠ startBlock) (hnone : s.versionsOf j name = [])
    {x y : Value} (hx : s.isLive x.id = true) (hy : s.isLive y.id = true) {t : State}
    (ht : t = (s.merge j name x y (s.visibleInst? (s.blockAbove j) name)).2) :
    ∃ v a, t.visible? j name = some v ∧ t.versions[v]? = some a ∧ t.IsMerger j x.id y.id a.inst ∧
      Amends [name] [j] (if x.id = y.id then [] else [a.inst]) s t := by
  have hadv := (h.merge hj name x y (s.visibleInst? (s.blockAbove j) name)).1
  rw [← ht] at hadv
  have hentry : entryBlock ∉ [j] := fun he => hne (List.mem_singleton.mp he).symm
  unfold merge at ht
  rw [head?_of_versionsOf hnone] at ht
  dsimp only at ht
  by_cases hxy : x.id = y.id
  · rw [if_neg fun hne => hne hxy] at ht
    unfold IsMerger
    simp only [if_pos hxy]
    by_cases habove : s.visibleInst? (s.blockAbove j) name = some x.id
    · -- the join sees what the block above it sees
      rw [if_pos habove] at ht
      subst ht
      obtain ⟨v, hv, hinst⟩ := bind_eq_some_iff.mp habove
      obtain ⟨a, ha, hid⟩ := map_eq_some_iff.mp hinst
      refine ⟨v, a, ?_, ha, hid, .refl hs⟩
      rw [visible?_eq_findSome? h] at hv ⊢
      rw [hr.dominatorsOf_eq h.wired hj hne hstart, List.findSome?_cons,
        last?_eq_none_of_versionsOf h hnone, hv]
    · rw [if_neg habove] at ht
      obtain ⟨ham, hlast, hver⟩ := amends_addHead h hs hj hne hnone
        (a := ⟨name, s.nextVersion j name, x.id, j, x.src, [], true, none⟩) rfl rfl hx
      subst ht
      exact ⟨_, _, visible?_of_last? hadv.wellFormed (hadv.isSome_block hj) hlast, hver, rfl, ham⟩
  · rw [if_pos hxy] at ht
    unfold IsMerger
    simp only [if_neg hxy]
    obtain ⟨hemit, i, hi, hop, hactive, hblock, hix, hiy⟩ := amends_emitPhi h hs hj x y
    have hpadv := (h.emitPhi hj x y).1
    have hversions := (h.emitPhi hj x y).2.2
    unfold newPhi at ht
    dsimp only at ht
    generalize s.emitPhi j x y = r at hemit hi hpadv hversions ht
    obtain ⟨phi, u⟩ := r
    dsimp only at hemit hi hpadv hversions ht
    have hno : u.versionsOf j name = [] := by
      refine List.eq_nil_iff_forall_not_mem.mpr fun v hv => ?_
      rw [hpadv.wellFormed.mem_versionsOf, hversions, ← h.mem_versionsOf, hnone] at hv
      cases hv
    have hlive : u.isLive phi.id = true := by
      rw [isLive, hi]
      exact hactive
    have hhead := addVersion_modifyVersion u
      (a := ⟨name, u.nextVersion j name, 0, j, .absent, [], true, none⟩)
      ⟨name, u.nextVersion j name, phi.id, j, phi.src, [], true, some phi.id⟩
      (f := fun v => { v with inst := phi.id, src := phi.src, phi := some phi.id })
      (u.leadingRun j) rfl rfl rfl
    rw [addHead, hhead, show (u.addVersion ⟨name, u.nextVersion j name, 0, j, .absent,
      [], true, none⟩ (u.leadingRun j)).1 = u.versions.size from rfl] at ht
    obtain ⟨ham, hlast, hver⟩ := amends_addHead hpadv.wellFormed hemit.held (hpadv.isSome_block hj)
      hne hno (a := ⟨name, u.nextVersion j name, phi.id, j, phi.src, [], true, some phi.id⟩) rfl rfl
      hlive
    have hreport : Amends [] [] []
      ((u.addVersion ⟨name, u.nextVersion j name, phi.id, j, phi.src, [], true, some phi.id⟩
      (u.leadingRun j)).2.depend u.versions.size) t := .of_arenas ham.held (by rw [ht]; rfl)
        (by rw [ht]; rfl) (by rw [ht]; rfl)
    have hrest := ham.trans (hreport.mono (List.nil_subset _) (List.nil_subset _)) hentry
    refine ⟨u.versions.size, _, visible?_of_last? hadv.wellFormed (hadv.isSome_block hj) ?_,
      hreport.version hver, ?_, ?_⟩
    · rcases hreport.last j name with hl | ⟨hn, -⟩
      · exact hl.trans hlast
      · cases hn
    · obtain ⟨i', hi', hcore⟩ := hrest.inst hi (by rw [hop]; intro he; cases he)
      refine ⟨i', hi', (congrArg Instruction.op hcore).trans hop,
        (congrArg Instruction.active hcore).trans hactive, (congrArg Instruction.block hcore).trans
        hblock, (congrArg Instruction.x hcore).trans (hix.trans ?_),
        (congrArg Instruction.y hcore).trans (hiy.trans ?_)⟩
      · rw [Value.operand, if_neg (Int.ne_of_gt (isLive_le hx).1)]
      · rw [Value.operand, if_neg (Int.ne_of_gt (isLive_le hy).1)]
    · exact (hemit.mono (List.nil_subset _) (List.nil_subset _)).trans hrest hentry

theorem Advances.chained (h : Advances s t) (hw : Wired s) (hr : s.Chained) : t.Chained :=
  (h.continues (D := fun _ => False)).chained hw (fun _ hf => hf.elim) hr

/-- A variable that is not concerned, or a block that is not, gets no version. -/
theorem Amends.versionsOf_eq_nil {names : List String} {bs : List BlockId} {new : List InstId}
    (h : Amends names bs new s t) (hs : WellFormed s) (ht : WellFormed t)
    (hnone : s.versionsOf b name = []) (hb : name ∉ names ∨ b ∉ bs ∧ b ≠ startBlock) :
    t.versionsOf b name = [] := by
  refine List.eq_nil_iff_forall_not_mem.mpr fun v hv => ?_
  obtain ⟨a, ha, hblock, hvar⟩ := ht.mem_versionsOf.mp hv
  rcases h.fresh ha with hold | ⟨hn, hwhere⟩
  · have := hs.mem_versionsOf.mpr ⟨a, hold, hblock, hvar⟩
    rw [hnone] at this
    cases this
  · rcases hb with hn' | ⟨hb, hstart⟩
    · exact hn' (hvar ▸ hn)
    · exact hwhere.elim (fun h => hb (hblock ▸ h)) fun h => hstart (hblock.symm.trans h)

/-- What arrives is the same as before other variables, or the zero of this one, were dealt with. -/
theorem Arrives.of_amends {names names' : List String} {bs bs' : List BlockId}
    {new new' : List InstId} {u : State} {x : InstId} (hx : Arrives t u b name x)
    (h : Amends names bs new s t) (ht : Advances s t) (hw : WellFormed s) (hr : s.Chained)
    (hb : (s.block? b).isSome) (h' : Amends names' bs' new' t u)
    (hbs : ∀ d ∈ bs, d ∉ s.dominatorsOf b) : Arrives s u b name x := by
  rcases h.visible? name ht hw hr hb hbs with hsame | ⟨hnone, -, v, a, hv, ha, hnum⟩
  · rcases hx with hx | ⟨hx, hnum⟩
    · obtain ⟨v, hv, hinst⟩ := bind_eq_some_iff.mp hx
      obtain ⟨a, ha, hid⟩ := map_eq_some_iff.mp hinst
      obtain ⟨a', ha', -⟩ := isLive_of_visible? hw (hsame.symm.trans hv)
      cases ha.symm.trans (h.version ha')
      exact .inl (by simp [visibleInst?, hsame.symm.trans hv, ha', hid])
    · exact .inr ⟨hsame.symm.trans hx, hnum⟩
  · refine .inr ⟨hnone, h'.isNumber ?_⟩
    rcases hx with hx | ⟨hx, -⟩
    · rw [visibleInst?, hv, bind_some, ha, map_some, Option.some.injEq] at hx
      exact hx ▸ hnum
    · cases hv.symm.trans hx

theorem Arrives.mono {names : List String} {bs : List BlockId} {new : List InstId}
    {u : State} {x : InstId} (hx : Arrives s t b name x) (h : Amends names bs new t u) :
    Arrives s u b name x :=
  hx.imp_right fun hz => ⟨hz.1, h.isNumber hz.2⟩

/-- A join as an `if` leaves it before it is closed: it has two parents with code, and so is none of
the first two blocks. -/
structure Meets (s : State) (j p q : BlockId) : Prop where
  parents : (s.block? j).map (·.parents) = some [p, q]
  first : p ≠ entryBlock
  second : q ≠ entryBlock
  entry : j ≠ entryBlock
  start : j ≠ startBlock

namespace Meets

variable {p q : BlockId}

theorem isSome (h : Meets s j p q) : (s.block? j).isSome := by
  have := congrArg Option.isSome h.parents
  rwa [isSome_map] at this

theorem advances (h : Meets s j p q) (ht : Advances s t) : Meets t j p q := by
  refine ⟨?_, h.first, h.second, h.entry, h.start⟩
  have := congrArg (Option.map (·.parents)) (ht.graph j)
  rw [Option.map_map, Option.map_map] at this
  exact this.trans h.parents

theorem joinParents (h : Meets s j p q) : s.joinParents j = (p, q) := by
  rw [State.joinParents, h.parents]
  rfl

theorem isSome_parents (h : Meets s j p q) (hs : WellFormed s) : (s.block? p).isSome ∧
    (s.block? q).isSome := by
  have := hs.isSome_joinParents j
  rw [h.joinParents] at this
  exact ⟨this.1 h.first, this.2 h.second⟩

end Meets

/-- One variable is merged. -/
theorem amends_reconcile {p q : BlockId} (h : WellFormed s) (hr : s.Chained) (hs : s.Settled)
    (hj : Meets s j p q) (hnone : s.versionsOf j name = []) : ∃ x y v a,
    Arrives s (s.reconcile j name) p name x ∧ Arrives s (s.reconcile j name) q name y ∧
      (s.reconcile j name).visible? j name = some v ∧ (s.reconcile j name).versions[v]? = some a ∧
      (s.reconcile j name).IsMerger j x y a.inst ∧ Amends [name] [j]
      (if x = y then [] else [a.inst]) s (s.reconcile j name) := by
  have hentry : entryBlock ∉ [j] := fun he => hj.entry (List.mem_singleton.mp he).symm
  have hvar : Amends [name] [] [] s (s.addJoinVar j name) :=
    (Amends.addJoinVar hs j name).mono (List.nil_subset _) (List.nil_subset _)
  have hvadv := h.addJoinVar j name
  have hparents := (hj.advances hvadv).joinParents
  unfold State.reconcile
  dsimp only
  generalize s.addJoinVar j name = s₁ at hvar hvadv hparents ⊢
  rw [hparents]
  have hr₁ := hvadv.chained h.wired hr
  obtain ⟨hp₁, hq₁⟩ := (hj.advances hvadv).isSome_parents hvadv.wellFormed
  obtain ⟨hread, hx, hlive⟩ := amends_readAtEnd hvadv.wellFormed hr₁ hvar.held hp₁ hj.first name
    (some .partialJoin)
  have hxadv := hvadv.wellFormed.readAtEnd name (fun _ => hp₁) (some .partialJoin)
  generalize s₁.readAtEnd p name (some .partialJoin) = r at hread hx hlive hxadv ⊢
  obtain ⟨x, s₂⟩ := r
  dsimp only at hread hx hlive hxadv ⊢
  have hr₂ := hxadv.chained hvadv.wellFormed.wired hr₁
  have hq₂ := hxadv.isSome_block hq₁
  obtain ⟨hread', hy, hlive'⟩ :=
    amends_readAtEnd hxadv.wellFormed hr₂ hread.held hq₂ hj.second name (some .partialJoin)
  have hyadv := hxadv.wellFormed.readAtEnd name (fun _ => hq₂) (some .partialJoin)
  generalize s₂.readAtEnd q name (some .partialJoin) = r at hread' hy hlive' hyadv ⊢
  obtain ⟨y, s₃⟩ := r
  dsimp only at hread' hy hlive' hyadv ⊢
  have hadv₂ := hvadv.trans hxadv
  have hadv₃ := hadv₂.trans hyadv
  have ham₂ := hvar.trans hread List.not_mem_nil
  have ham₃ := ham₂.trans hread' List.not_mem_nil
  have hlive₃ : s₃.isLive x.id = true := (hread'.live (isLive_le hlive).2).trans hlive
  obtain ⟨v, a, hv, ha, hmerge, ham⟩ := amends_merge hadv₃.wellFormed (hadv₃.chained h.wired hr)
    ham₃.held (hj.advances hadv₃).isSome hj.entry hj.start
    (ham₃.versionsOf_eq_nil h hadv₃.wellFormed hnone (.inr ⟨List.not_mem_nil, hj.start⟩))
    hlive₃ hlive' rfl
  obtain ⟨hp, hq⟩ := hj.isSome_parents h
  have hfrom₂ := (hread'.mono (List.Subset.refl _) (List.nil_subset [j])).trans ham hentry
  have hfrom₁ := (hread.mono (List.Subset.refl _) (List.nil_subset [j])).trans hfrom₂ hentry
  refine ⟨x.id, y.id, v, a, ?_, ?_, hv, ha, hmerge, ?_⟩
  · exact (hx.mono hfrom₂).of_amends hvar hvadv h hr hp hfrom₁ fun _ hd => by cases hd
  · exact (hy.mono ham).of_amends ham₂ hadv₂ h hr hq hfrom₂ fun _ hd => by cases hd
  · exact (ham₃.mono (List.Subset.refl _) (List.nil_subset _)).trans ham hentry

end Merge

/-! ## Merging all variables of an `if` -/

/-- The instruction that holds a variable at the end of a block, or `zero` if no version of it is
visible there. -/
def State.valueAt (s : State) (zero : InstId) (b : BlockId) (name : String) : InstId :=
  (s.visibleInst? b name).getD zero

section MergeAll

variable {s t u : State} {b j p q : BlockId} {name : String}

open State

theorem const_eq (h : WellFormed s) {id : InstId} {n : Int64} (hi : s.IsNumber id n) :
    (s.const n).1.id = id := by
  obtain ⟨i, hi, hop, hx⟩ := hi
  obtain ⟨-, hactive, -, -, e, he, heop, heid, hex⟩ := h.known.const hi hop
  unfold State.const
  cases hk : (s.entriesOf entryBlock).find? fun e =>
      e.op == .const && e.x == .literal n && s.isLive e.id with
  | none =>
    have := List.find?_eq_none.mp hk e he
    simp [heop, hex, hx, heid, isLive, hi, hactive] at this
  | some e' =>
    have hfound := List.find?_some hk
    simp only [Bool.and_eq_true, beq_iff_eq] at hfound
    obtain ⟨i', hi', -, hop', -, hx', -⟩ :=
      h.known.entry (List.mem_of_find?_eq_some hk) (by rw [hfound.1.1]; intro he; cases he)
    exact h.known.const_inj hi' hi (hop'.trans hfound.1.1) hop
      (hx'.trans (hfound.1.2.trans hx.symm))

theorem Arrives.valueAt_eq {x : InstId} (h : Arrives s t b name x) (ht : WellFormed t) :
    s.valueAt (t.const 0).1.id b name = x := by
  rcases h with hx | ⟨hnone, hnum⟩
  · rw [valueAt, hx, getD_some]
  · rw [valueAt, visibleInst?, hnone, bind_none, Option.getD_none, const_eq ht hnum]

theorem Arrives.isNumber_const {x : InstId} (h : Arrives s t b name x) (ht : WellFormed t)
    (hnone : s.visible? b name = none) : t.IsNumber (t.const 0).1.id 0 := by
  rcases h with hx | ⟨-, hnum⟩
  · rw [visibleInst?, hnone] at hx
    cases hx
  · rwa [const_eq ht hnum]

theorem State.IsMerger.mono {names : List String} {bs : List BlockId} {new : List InstId}
    {x y id : InstId} (h : s.IsMerger j x y id) (ht : Amends names bs new s t) :
    t.IsMerger j x y id := by
  unfold IsMerger at h ⊢
  split
  · rwa [if_pos ‹_›] at h
  · rw [if_neg ‹_›] at h
    obtain ⟨i, hi, hop, hactive, hblock, hx, hy⟩ := h
    obtain ⟨i', hi', hcore⟩ := ht.inst hi (by rw [hop]; intro he; cases he)
    exact ⟨i', hi', (congrArg Instruction.op hcore).trans hop,
      (congrArg Instruction.active hcore).trans hactive, (congrArg Instruction.block hcore).trans
      hblock, (congrArg Instruction.x hcore).trans hx, (congrArg Instruction.y hcore).trans hy⟩

/-- What a join has of some variables after they were merged there, one after the other. -/
structure Joins (j p q : BlockId) (names : List String) (zero : InstId) (s t : State) : Prop where
  advances : Advances s t
  amends : Amends names [j]
    ((names.filter fun n => s.valueAt zero p n ≠ s.valueAt zero q n).filterMap (t.visibleInst? j)) s
    t
  merged : ∀ name ∈ names, ∃ v a, t.visible? j name = some v ∧ t.versions[v]? = some a ∧
    t.IsMerger j (s.valueAt zero p name) (s.valueAt zero q name) a.inst
  zero : ∀ name ∈ names, s.visible? p name = none ∨ s.visible? q name = none → t.IsNumber zero 0

theorem joins_reconcileAll {names : List String} (hnodup : names.Nodup) (h : WellFormed s)
    (hr : s.Chained) (hs : s.Settled) (hj : Meets s j p q)
    (hnone : ∀ name ∈ names, s.versionsOf j name = []) :
    Joins j p q names ((s.reconcileAll j names).const 0).1.id s (s.reconcileAll j names) := by
  induction names generalizing s with
  | nil => exact ⟨.refl h, .refl hs, fun _ hn => (by cases hn), fun _ hn => (by cases hn)⟩
  | cons name names ih =>
    obtain ⟨hnot, hnodup⟩ := List.nodup_cons.mp hnodup
    have hentry : entryBlock ∉ [j] := fun he => hj.entry (List.mem_singleton.mp he).symm
    have hadv := h.reconcile hj.isSome name
    obtain ⟨x, y, v, a, hx, hy, hv, ha, hmerge, ham⟩ :=
      amends_reconcile h hr hs hj (hnone name (List.mem_cons_self ..))
    have hother : ∀ name' ∈ names, name' ∉ [name] :=
      fun name' hn he => hnot (List.mem_singleton.mp he ▸ hn)
    have ih := ih hnodup hadv.wellFormed (hadv.chained h.wired hr) ham.held (hj.advances hadv)
      fun name' hn => ham.versionsOf_eq_nil h hadv.wellFormed
      (hnone name' (List.mem_cons_of_mem _ hn)) (.inl (hother name' hn))
    rw [show s.reconcileAll j (name :: names) = (s.reconcile j name).reconcileAll j names from rfl]
    generalize (s.reconcile j name).reconcileAll j names = t at ih ⊢
    generalize s.reconcile j name = s₁ at *
    -- the later variables arrive as they did before
    have hsame : ∀ name' ∈ names, ∀ b zero, s₁.valueAt zero b name' = s.valueAt zero b name' := by
      intro name' hn b zero
      rw [valueAt, valueAt, (ham.visible?_of_not_mem hadv h (hother name' hn) b).2]
    obtain ⟨hvis, hinst⟩ := ih.amends.visible?_of_not_mem ih.advances hadv.wellFormed hnot j
    have hx' := (hx.mono ih.amends).valueAt_eq ih.advances.wellFormed
    have hy' := (hy.mono ih.amends).valueAt_eq ih.advances.wellFormed
    have hown : t.visibleInst? j name = some a.inst := by
      rw [hinst, visibleInst?, hv, bind_some, ha, map_some]
    refine ⟨hadv.trans ih.advances, ?_, fun name' hn => ?_, fun name' hn hmiss => ?_⟩
    · have hall := (ham.mono (List.cons_subset_cons _ (List.nil_subset names))
        (List.Subset.refl _)).trans (ih.amends.mono (List.subset_cons_self ..) (List.Subset.refl _))
        hentry
      have hrest : (names.filter fun n => s₁.valueAt (t.const 0).1.id p n ≠ s₁.valueAt
        (t.const 0).1.id q n) = names.filter fun n => s.valueAt (t.const 0).1.id p n ≠ s.valueAt
        (t.const 0).1.id q n :=
        List.filter_congr fun n hn => by rw [hsame n hn, hsame n hn]
      rw [hrest] at hall
      rw [List.filter_cons, hx', hy']
      by_cases hxy : x = y
      · rw [if_pos hxy, List.nil_append] at hall
        rwa [if_neg (by simpa using hxy)]
      · rw [if_neg hxy] at hall
        rwa [if_pos (by simpa using hxy), List.filterMap_cons_some hown]
    · rcases List.mem_cons.mp hn with rfl | hn
      · rw [hx', hy']
        exact ⟨v, a, hvis.trans hv, ih.amends.version ha, hmerge.mono ih.amends⟩
      · rw [← hsame name' hn, ← hsame name' hn]
        exact ih.merged name' hn
    · rcases List.mem_cons.mp hn with rfl | hn
      · exact hmiss.elim ((hx.mono ih.amends).isNumber_const ih.advances.wellFormed)
          ((hy.mono ih.amends).isNumber_const ih.advances.wellFormed)
      · refine ih.zero name' hn ?_
        rwa [(ham.visible?_of_not_mem hadv h (hother name' hn) p).1,
          (ham.visible?_of_not_mem hadv h (hother name' hn) q).1]

theorem lookup_eq_ok (hb : (s.block? b).isSome) (hne : b ≠ entryBlock) {c : VersionId}
    (hc : s.visible? b name = some c) : lookup b name s = .ok (s.readVersion b name c) s := by
  obtain ⟨blk, hb⟩ := isSome_iff_exists.mp hb
  have hread : s.readAtEnd b name (some .readFirst) = (s.readVersion b name c, s) := by
    rw [readAtEnd, if_neg hne, hc]
  have hends : Ends (lookup b name) s (fun _ _ => False)
      fun val t => val = s.readVersion b name c ∧ t = s := by
    unfold lookup
    rw [if_neg hne]
    refine .bind (.bind (.get ?_))
    rw [hb]
    exact .pure (ends_step (by rw [hread]; exact ⟨rfl, rfl⟩))
  obtain ⟨_, _, hlookup, rfl, rfl⟩ := hends.exists_ok
  exact hlookup

/-- What a read in the join answers for a variable that was merged there. -/
theorem Joins.lookup_eq {names : List String} {zero : InstId} (h : Joins j p q names zero s t)
    (hj : Meets s j p q) (hn : name ∈ names) : ∃ val : Value, lookup j name t = .ok val t ∧
    t.visibleInst? j name = some val.id ∧ t.IsMerger j (s.valueAt zero p name)
      (s.valueAt zero q name) val.id := by
  obtain ⟨v, a, hv, ha, hmerge⟩ := h.merged name hn
  have hid : (t.readVersion j name v).id = a.inst := by rw [readVersion, ha]
  refine ⟨t.readVersion j name v, lookup_eq_ok (h.advances.isSome_block hj.isSome) hj.entry hv,
    ?_, hid ▸ hmerge⟩
  rw [visibleInst?, hv, bind_some, ha, map_some, hid]

/-- Only a join is closed. -/
theorem yields_reconcileIf_join : Yields (reconcileIf j) s fun _ t =>
    ∃ blk c rest, s.block? j = some blk ∧ blk.join ≠ .none ∧ s.contexts = c :: rest ∧
      t = State.reconcileAll { s with contexts := rest } j c.touched := by
  refine .bind (yields_block fun blk hblk => .check fun hjoin => .check fun _ =>
    .bind (yields_closeJoin fun c rest hc => .forM_modify
        ⟨blk, c, rest, hblk, fun he => hjoin ?_, hc, rfl⟩))
  simp [he]

/-- Closing an `if` merges exactly the two values that come along the edges of its join. Of every
variable that was assigned in it the join then has the value that both parents have, or else a phi
of the two in the order of the parents, and these phis are the only ones that are new. Where no
version is visible at the end of a parent, the value is the constant 0. All blocks that the join
does not dominate see the versions that they saw. -/
theorem reconcileIf_merges (settings : Settings) (calls : List Call)
    (hcalls : AsGiven settings calls) {s t : State} (hs : s = State.after settings calls)
    (hheld : s.Settled) {join p q : BlockId} {c : JoinContext} {rest : List JoinContext}
    (hok : reconcileIf join s = .ok ⟨⟩ t) (hc : s.contexts = c :: rest)
    (hnone : ∀ name ∈ c.touched, s.versionsOf join name = [])
    (hparents : (s.block? join).map (·.parents) = some [p, q]) (hp : p ≠ entryBlock)
    (hq : q ≠ entryBlock) :
    ∃ (zero : InstId) (held : String → Value),
      (∀ name ∈ c.touched, s.visible? p name = none ∨ s.visible? q name = none →
        t.IsNumber zero 0) ∧
      (∀ name ∈ c.touched, lookup join name t = .ok (held name) t ∧
        t.IsMerger join (s.valueAt zero p name) (s.valueAt zero q name) (held name).id) ∧
      t.phis = s.phis ++ (c.touched.toList.filter fun name =>
        s.valueAt zero p name ≠ s.valueAt zero q name).map (fun name => (held name).id) ∧
      ∀ name b v, join ∉ s.dominatorsOf b → s.visible? b name = some v →
          t.visible? b name = some v := by
  have hw : WellFormed s := hs ▸ wellFormed_after settings calls
  have hr : s.Chained := hs ▸ chained_after settings hcalls
  obtain ⟨blk, c', rest', hblk, hjoin, hc', rfl⟩ := yields_reconcileIf_join ⟨⟩ t hok
  cases hc.symm.trans hc'
  have hclose : Advances s { s with contexts := rest } := hw.close rest
  have hmeets : Meets { s with contexts := rest } join p q :=
    ⟨hparents, hp, hq, fun he => hjoin (hw.wired.first (.inl he) hblk),
      fun he => hjoin (hw.wired.first (.inr he) hblk)⟩
  have hj := joins_reconcileAll c.touched.nodup hclose.wellFormed (hclose.chained hw.wired hr)
    hheld hmeets hnone
  generalize State.reconcileAll { s with contexts := rest } join c.touched = t at hj ⊢
  choose! held hlookup hinst hmerge using fun name (hn : name ∈ c.touched) => hj.lookup_eq hmeets hn
  refine ⟨(t.const 0).1.id, held, hj.zero, fun name hn => ⟨hlookup name hn, hmerge name hn⟩, ?_,
    fun name b v hb hv => ?_⟩
  · refine hj.amends.phis.trans (congrArg _ (List.filterMap_eq_map_iff_forall_eq_some.mpr
      fun name hn => ?_))
    exact hinst name (List.mem_of_mem_filter hn)
  · have hsome : (s.block? b).isSome := by
      by_contra hno
      rw [visible?_eq_findSome? hw, dominatorsOf, not_isSome_iff_eq_none.mp hno] at hv
      cases hv
    have hkeep := hj.amends.visible? name hj.advances hclose.wellFormed (hclose.chained hw.wired hr)
      (hclose.isSome_block hsome) fun d hd => List.mem_singleton.mp hd ▸ hb
    exact (hkeep.resolve_right fun hno => by cases hv.symm.trans hno.1).trans hv

end MergeAll

theorem asGiven_of_start (settings : Settings) {calls : List Call}
    (h : ∀ d, .newBlock d ∈ calls → d.dominators = [startBlock, entryBlock]) :
    AsGiven settings calls := by
  intro before d after he
  refine ⟨[], List.nil_prefix, startBlock, .new settings, by decide, ?_⟩
  rw [h d (by rw [he]; simp)]
  rfl

/-- Two paths of which both assign one variable and only the first assigns another. -/
def forked : List Call :=
  [.const 1, .const 2, .openJoin .ifElse,
    .newBlock { kind := .thenPart, dominators := [startBlock, entryBlock],
                parents := [startBlock] },
    .assign 2 "x" ⟨1, .immediate 1 1⟩, .assign 2 "y" ⟨1, .immediate 1 1⟩,
    .newBlock { kind := .elsePart, dominators := [startBlock, entryBlock],
                parents := [startBlock] },
    .assign 3 "x" ⟨2, .immediate 2 2⟩,
    .newBlock { kind := .join, join := .ifElse, dominators := [startBlock, entryBlock],
                parents := [2, 3] }]

theorem reconcileIf_merges_forked : ∃ (t : State) (zero : InstId) (held : String → Value),
    reconcileIf 4 (State.after {} forked) = .ok ⟨⟩ t ∧
    (∀ name ∈ ["x", "y"], (State.after {} forked).visible? 2 name = none ∨
      (State.after {} forked).visible? 3 name = none → t.IsNumber zero 0) ∧
    (∀ name ∈ ["x", "y"], lookup 4 name t = .ok (held name) t ∧
      t.IsMerger 4 ((State.after {} forked).valueAt zero 2 name)
        ((State.after {} forked).valueAt zero 3 name) (held name).id) ∧
    t.phis = (State.after {} forked).phis ++ (["x", "y"].filter fun name =>
      (State.after {} forked).valueAt zero 2 name ≠ (State.after {} forked).valueAt zero 3 name).map
        (fun name => (held name).id) ∧
    ∀ name b v, 4 ∉ (State.after {} forked).dominatorsOf b → (State.after {} forked).visible? b
        name = some v →
      t.visible? b name = some v := by
  have hok : reconcileIf 4 (State.after {} forked) =
      .ok ⟨⟩ (State.after {} (forked ++ [.reconcileIf 4])) := rfl
  have hnone : ∀ name ∈ ["x", "y"], (State.after {} forked).versionsOf 4 name = [] := by
    decide +kernel
  obtain ⟨zero, held, hconcl⟩ := reconcileIf_merges {} forked
    (asGiven_of_start {} (by simp [forked])) rfl
    (by decide +kernel) (c := ⟨.ifElse, ⟨["x", "y"], by decide⟩⟩) hok rfl hnone
    (show _ = some [2, 3] from rfl) (by decide) (by decide)
  exact ⟨_, zero, held, hok, hconcl⟩

/-- Calls after which a version stands for an instruction that is yet to come: the caller made up
the provenance of its value, and the repair of a loop took it from there. -/
def ahead : List Call :=
  [.const 1, .openJoin .loop,
    .newBlock { kind := .loopHeader, join := .loop, dominators := [startBlock, entryBlock],
                parents := [startBlock] },
    .assign 2 "x" ⟨1, .immediate 1 1⟩, .assign 2 "x" ⟨1, .unknown 5⟩,
    .reconcileLoop 2 2 0, .openJoin .ifThen,
    .newBlock { kind := .thenPart, dominators := [startBlock, entryBlock],
                parents := [startBlock] },
    .const 7, .assign 4 "y" ⟨4, .immediate 7 4⟩,
    .newBlock { kind := .join, join := .ifThen, dominators := [startBlock, entryBlock],
                parents := [4, startBlock] }]

/-- The phi of another variable is the instruction that the version stands for. The version becomes
visible in a block where an older one was, and that the join does not dominate. -/
theorem hidden_ahead : AsGiven {} ahead ∧ ¬ (State.after {} ahead).Settled ∧
    (State.after {} ahead).contexts = [⟨.ifThen, ⟨["y"], by decide⟩⟩] ∧
    (State.after {} ahead).versionsOf 5 "y" = [] ∧
    ((State.after {} ahead).block? 5).map (·.parents) = some [4, startBlock] ∧
    5 ∉ (State.after {} ahead).dominatorsOf 2 ∧
    (State.after {} ahead).visible? 2 "x" = some 0 ∧
    ∃ t, reconcileIf 5 (State.after {} ahead) = .ok ⟨⟩ t ∧ t.visible? 2 "x" = some 1 := by
  refine ⟨asGiven_of_start {}
    (by simp [ahead]), by decide +kernel, by decide +kernel, by decide +kernel,
    by decide +kernel, by decide +kernel, by decide +kernel,
    State.after {} (ahead ++ [.reconcileIf 5]), ?_,
    by decide +kernel⟩
  rfl

end SingleAssignment.Builder
