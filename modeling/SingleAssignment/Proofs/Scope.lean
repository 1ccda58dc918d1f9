import SingleAssignment.Proofs.Confluence

/-!
# Where an assignment is seen

A version is seen at the ends of the blocks that its block dominates, unless a block nearer to them
has a version of the variable itself (`State.Reaches`). So an assignment changes what is seen of its
variable there, and nothing else. The zero of a variable that no version reaches is put into the
first block with code, which dominates all others but the block of the constants: it is seen where
nothing was seen before (`visibility`).

Both are the same step: one block gets a last version of one variable, and all else stays as it is
(`Installs`). An assignment is such a step in any state. For a zero this takes that no version
stands for an instruction which is yet to come (`State.Settled`), since the constant of the zero may
be that instruction (`shown_by_zero`).
-/

namespace SingleAssignment.Builder

open Code List

namespace State

/-- A block has a version of a variable that stands for an active instruction. -/
def Holds (s : State) (b : BlockId) (name : String) : Prop :=
  ∃ ver ∈ s.versions, ver.block = b ∧ ver.var = name ∧ s.isLive ver.inst = true

instance (s : State) (b : BlockId) (name : String) : Decidable (s.Holds b name) :=
  inferInstanceAs (Decidable (∃ ver ∈ s.versions, ver.block = b ∧ ver.var = name ∧ s.isLive
    ver.inst = true))

/-- A version of a variable in block `b` is seen at the end of block `c`: `b` dominates `c`, and no
nearer block has a version itself. -/
def Reaches (s : State) (b c : BlockId) (name : String) : Prop :=
  b ∈ s.dominatorsOf c ∧ ∀ d ∈ (s.dominatorsOf c).takeWhile (· ≠ b), ¬ s.Holds d name

instance (s : State) (b c : BlockId) (name : String) : Decidable (s.Reaches b c name) :=
  inferInstanceAs (Decidable (_ ∧ _))

end State

section Installs

variable {s t : State} {b c d : BlockId} {name y : String} {v : VersionId}

open State

theorem last?_eq_none_iff (h : Listed s) : s.last? b name = none ↔ ¬ s.Holds b name := by
  unfold last?
  rw [find?_eq_none]
  constructor
  · rintro hno ⟨ver, hver, hb, hname, hlive⟩
    obtain ⟨v, hv⟩ := Array.mem_iff_getElem?.mp hver
    exact hno v (mem_reverse.mpr ((Amends.mem_marksOf h).mpr ⟨ver, hv, hb⟩))
      (shows_iff.mpr ⟨ver, hv, hname, hlive⟩)
  · intro hno v hv hshows
    obtain ⟨ver, hver, hb⟩ := (Amends.mem_marksOf h).mp (mem_reverse.mp hv)
    obtain ⟨ver', hver', hname, hlive⟩ := shows_iff.mp hshows
    cases hver.symm.trans hver'
    exact hno ⟨ver, Array.mem_of_getElem? hver, hb, hname, hlive⟩

/-- The versions that are seen in blocks depend on what each stands for and on which instructions
are active. -/
theorem last?_congr (hversions : ∀ v : VersionId, (t.versions[v]?).map (fun a => (a.var, a.inst)) =
      (s.versions[v]?).map fun a => (a.var, a.inst))
    (htime : ∀ b, t.timelineOf b = s.timelineOf b) (hlive : ∀ id, t.isLive id = s.isLive id)
    (b : BlockId) (name : String) : t.last? b name = s.last? b name := by
  have hshows : t.shows name = s.shows name := by
    funext v
    have hshow (u : State) : u.shows name v =
        ((u.versions[v]?).map fun a => (a.var, a.inst)).any fun p => p.1 == name &&
        u.isLive p.2 := by
      cases hv : u.versions[v]? with
      | none => rw [shows, hv]; rfl
      | some a => rw [shows, hv]; rfl
    rw [hshow, hshow, hversions]
    exact congrArg (Option.any · _) (funext fun p => by rw [hlive])
  rw [last?, last?, marksOf, marksOf, htime, hshows]

theorem last?_depend (s : State) (w : VersionId) (b : BlockId) (name : String) :
    (s.depend w).last? b name = s.last? b name := by
  unfold depend
  cases s.versions[w]? with
  | none => rfl
  | some ver =>
    dsimp only
    generalize ver.history ++ [ver.inst] = ids
    induction ids generalizing s with
    | nil => rfl
    | cons id ids ih =>
      rw [foldl_cons, ih]
      refine last?_congr (fun v => by rw [versions_modifyInst]) (fun b => timelineOf_modifyInst ..)
        (fun id' => ?_) b name
      unfold isLive
      rw [inst?_modifyInst]
      split
      · rename_i he
        subst he
        cases s.inst? id' with
        | none => rfl
        | some i =>
          show (i.addDep ver.ref).active = i.active
          unfold Instruction.addDep
          split <;> rfl
      · rfl

/-- Where a version comes from does not matter. -/
theorem last?_modifyVersion {f : Version → Version} (hvar : ∀ a, (f a).var = a.var)
    (hinst : ∀ a, (f a).inst = a.inst) (s : State) (w : VersionId) (b : BlockId) (name : String) :
    (s.modifyVersion w f).last? b name = s.last? b name := by
  refine last?_congr (s := s) (t := s.modifyVersion w f) (fun v => ?_) (fun _ => rfl)
    (fun _ => rfl) b name
  unfold modifyVersion
  rw [Array.getElem?_modify]
  split
  · rw [Option.map_map]
    refine Option.map_congr fun a _ => ?_
    rw [Function.comp_apply, hvar, hinst]
  · rfl

/-- Version `v` is the last one of a variable in a block, and was none of another variable or block.
What the others are is as it was. -/
structure Installs (s t : State) (b : BlockId) (name : String) (v : VersionId) : Prop where
  wellFormed : WellFormed t
  doms : ∀ c, t.dominatorsOf c = s.dominatorsOf c
  last : t.last? b name = some v
  rest : ∀ d y, ¬ (d = b ∧ y = name) → t.last? d y = s.last? d y
  own : ∀ {d y}, s.last? d y = some v → d = b ∧ y = name

/-- What is found first in a list, when it is now found at one more of its elements. -/
theorem findSome?_installed {α β : Type} [DecidableEq α] {f g : α → Option β} {a : α} {v : β}
    (ha : g a = some v) (hrest : ∀ d, d ≠ a → g d = f d) (l : List α) :
    ((a ∈ l ∧ ∀ d ∈ l.takeWhile (· ≠ a), f d = none) → l.findSome? g = some v) ∧
      (¬ (a ∈ l ∧ ∀ d ∈ l.takeWhile (· ≠ a), f d = none) → l.findSome? g = l.findSome? f) := by
  induction l with
  | nil => exact ⟨fun h => absurd h.1 not_mem_nil, fun _ => rfl⟩
  | cons d l ih =>
    by_cases hd : d = a
    · subst hd
      rw [findSome?_cons, ha, takeWhile_cons_of_neg (by simp)]
      exact ⟨fun _ => rfl, fun h => absurd ⟨mem_cons_self, fun _ hd => absurd hd not_mem_nil⟩ h⟩
    · have hmem : a ∈ d :: l ↔ a ∈ l :=
        ⟨fun h => (mem_cons.mp h).resolve_left (Ne.symm hd), mem_cons_of_mem d⟩
      rw [findSome?_cons, findSome?_cons, hrest d hd, takeWhile_cons_of_pos (by simpa using hd),
        hmem, forall_mem_cons]
      cases hf : f d with
      | none => simpa [hf] using ih
      | some w => simp

namespace Installs

/-- The version is seen where it reaches, and elsewhere what was seen before. -/
theorem visible? (h : Installs s t b name v) (hs : WellFormed s) (c : BlockId) (y : String) :
    (y = name ∧ s.Reaches b c name → t.visible? c y = some v) ∧
      (¬ (y = name ∧ s.Reaches b c name) → t.visible? c y = s.visible? c y) := by
  rw [visible?_eq_findSome? h.wellFormed, visible?_eq_findSome? hs, h.doms]
  by_cases hy : y = name
  · subst hy
    have hfound := findSome?_installed (f := (s.last? · y)) h.last
      (fun d hd => h.rest d y fun he => hd he.1) (s.dominatorsOf c)
    simpa only [Reaches, last?_eq_none_iff hs.listed, true_and] using hfound
  · refine ⟨fun he => absurd he.1 hy, fun _ => View.findSome?_congr fun d _ => h.rest d y
      fun he => hy he.2⟩

theorem visible?_iff (h : Installs s t b name v) (hs : WellFormed s) (c : BlockId) (y : String) :
    t.visible? c y = some v ↔ y = name ∧ s.Reaches b c name := by
  refine ⟨fun hv => ?_, (h.visible? hs c y).1⟩
  by_contra hno
  -- it was seen before, so it is a version of this block, and reaches
  rw [(h.visible? hs c y).2 hno, visible?_eq_findSome? hs, findSome?_eq_some_iff] at hv
  obtain ⟨near, d, far, hds, hd, hnear⟩ := hv
  obtain ⟨rfl, rfl⟩ := h.own hd
  have hnot : d ∉ near := fun hmem => by cases hd.symm.trans (hnear d hmem)
  refine hno ⟨rfl, by simp [hds], fun c' hc' => (last?_eq_none_iff hs.listed).mp (hnear c' ?_)⟩
  have hpos : ∀ c' ∈ near, decide (c' ≠ d) = true :=
    fun c' hc' => decide_eq_true fun he => hnot (he ▸ hc')
  rwa [hds, takeWhile_append_of_pos hpos, takeWhile_cons_of_neg (by simp), append_nil] at hc'

end Installs

/-! ## Assignments -/

theorem lt_of_last? (h : Listed s) (hv : s.last? b name = some v) : v < s.versions.size :=
  Amends.lt_of_mem_marksOf h (last?_eq_some hv).1

/-- A version that is seen somewhere is one of its block and its variable. -/
theorem eq_of_last? (h : Listed s) (hv : s.last? b name = some v) {ver : Version}
    (hver : s.versions[v]? = some ver) : ver.block = b ∧ ver.var = name := by
  obtain ⟨hmem, hshows⟩ := last?_eq_some hv
  obtain ⟨ver₁, hver₁, hb⟩ := (Amends.mem_marksOf h).mp hmem
  obtain ⟨ver₂, hver₂, hname, -⟩ := shows_iff.mp hshows
  cases hver.symm.trans hver₁
  cases hver.symm.trans hver₂
  exact ⟨hb, hname⟩

/-- An assignment installs the version it yields, a new one or the one that says so already. -/
theorem installs_assign (name : String) (h : WellFormed s) (hb : (s.block? b).isSome) {x : Value}
    (hlive : s.isLive x.id = true) : Installs s (s.assign b name x).2 b name
    (s.assign b name x).1 := by
  have hadv : Advances s (s.assign b name x).2 := h.assign hb x
  suffices hlast : (s.assign b name x).2.last? b name = some (s.assign b name x).1 ∧
      (∀ d y, ¬ (d = b ∧ y = name) → (s.assign b name x).2.last? d y = s.last? d y) ∧
      ∀ d y, s.last? d y = some (s.assign b name x).1 → d = b ∧ y = name from
    ⟨hadv.wellFormed, hadv.dominatorsOf_eq, hlast.1, hlast.2.1, fun {d y} => hlast.2.2 d y⟩
  unfold State.assign
  dsimp only
  split
  · rename_i c hc
    obtain ⟨hseen, hsame⟩ := Option.filter_eq_some_iff.mp hc
    obtain ⟨ver, hver, hsame⟩ := (Option.any_eq_true ..).mp (Bool.and_eq_true_iff.mp hsame).2
    rw [visible?_eq_findSome? h] at hseen
    obtain ⟨d, -, hd⟩ := exists_of_findSome?_eq_some hseen
    obtain ⟨rfl, rfl⟩ := eq_of_last? h.listed hd hver
    have hblock : ver.block = b := beq_iff_eq.mp (Bool.and_eq_true_iff.mp hsame).1
    have hkept (d : BlockId) (y : String) : ((s.modifyVersion c fun ver =>
        { ver with src := x.src, history := x.src.history }).depend c).last? d y = s.last? d y := by
      rw [last?_depend]
      apply last?_modifyVersion
      all_goals exact fun _ => rfl
    subst hblock
    refine ⟨(hkept ..).trans hd, fun d y _ => hkept d y, fun d y hdy => ?_⟩
    obtain ⟨rfl, rfl⟩ := eq_of_last? h.listed hdy hver
    exact ⟨rfl, rfl⟩
  · obtain ⟨blk, hb⟩ := Option.isSome_iff_exists.mp hb
    generalize hver : ({ var := name, number := s.nextVersion b name, inst := x.id,
                         block := b, src := x.src, history := x.src.history } : Version) = ver
    have hkept (d : BlockId) (y : String) :
      (((s.addVersion ver (s.endOf b)).2.depend s.versions.size).touch name).last? d
      y = (s.addVersion ver (s.endOf b)).2.last? d y :=
      (last?_congr (fun _ => rfl) (fun _ => rfl) (fun _ => rfl) d y).trans (last?_depend ..)
    subst hver
    refine ⟨(hkept ..).trans (Amends.last?_addVersion_end h.listed hb hlive),
      fun d y hne => (hkept d y).trans ?_, fun d y hdy => ?_⟩
    · exact Amends.last?_addVersion h.listed hb (not_and_or.mp hne)
    · exact absurd (lt_of_last? h.listed hdy) (Nat.lt_irrefl _)

/-! ## Zeros -/

/-- In nested blocks nothing is seen where nothing is seen in the first block with code, and nothing
on the way from there. -/
theorem State.Chained.reaches_start (h : WellFormed s) (hr : s.Chained)
    (hstart : s.last? startBlock name = none) (hentry : s.last? entryBlock name = none)
    (c : BlockId) :
    s.Reaches startBlock c name ↔ c ≠ entryBlock ∧ (s.block? c).isSome ∧
      s.visible? c name = none := by
  by_cases hc : (s.block? c).isSome
  · by_cases hne : c = entryBlock
    · subst hne
      rw [Reaches, hr.entry]
      simp [startBlock, entryBlock]
    · obtain ⟨L, hL, hnot⟩ := hr.exists_chain hc hne
      have hpos : ∀ d ∈ L, decide (d ≠ startBlock) = true :=
        fun d hd => decide_eq_true fun he => hnot (he ▸ hd)
      rw [Reaches, visible?_eq_findSome? h, hL, takeWhile_append_of_pos hpos,
        takeWhile_cons_of_neg (by simp), append_nil, findSome?_eq_none_iff]
      simp [← last?_eq_none_iff h.listed, hne, hc, hstart, hentry, or_imp, forall_and]
  · have hnone := Option.not_isSome_iff_eq_none.mp hc
    simp [Reaches, dominatorsOf, hnone]

/-- A variable that nothing is seen of gets a zero in the first block with code. -/
theorem installs_readAtEnd (h : WellFormed s) (hr : s.Chained) (hs : s.Settled)
    (hb : (s.block? b).isSome) (hne : b ≠ entryBlock) (hv : s.visible? b name = none)
    (cause : Option ZeroCause) :
    ∃ v ver, Installs s (s.readAtEnd b name cause).2 startBlock name v ∧
      (s.readAtEnd b name cause).2.versions[v]? = some ver ∧ ver.var = name ∧ ver.number = 0 ∧
      ver.block = startBlock ∧ (s.readAtEnd b name cause).2.IsNumber ver.inst 0 ∧
      (s.readAtEnd b name cause).1.id = ver.inst ∧
      ∀ c, s.Reaches startBlock c name ↔ c ≠ entryBlock ∧ (s.block? c).isSome ∧
        s.visible? c name = none := by
  have hadv := h.readAtEnd name (fun _ => hb) cause
  obtain ⟨hstart, hentry⟩ := hr.unseen h hb hne hv
  obtain ⟨ham, ver, hver, hnum, -, hzero, hshown, hfresh⟩ :=
    amends_implicitZero (b := b) h hs hstart hentry cause
  have hread : s.readAtEnd b name cause = ((s.implicitZero b name cause).2.readVersion b name
      (s.implicitZero b name cause).1, (s.implicitZero b name cause).2) := by
    rw [readAtEnd, if_neg hne, hv]
  rw [hread] at hadv ⊢
  obtain ⟨hblock, hvar⟩ := eq_of_last? hadv.wellFormed.listed hshown hver
  refine ⟨_, ver, ⟨hadv.wellFormed, hadv.dominatorsOf_eq, hshown, fun d y hdy => ?_,
    fun {d y} hdy => ?_⟩, hver, hvar, hzero, hblock, hnum, ?_, hr.reaches_start h hstart hentry⟩
  · refine (ham.last d y).resolve_right fun hnew => hdy ?_
    rcases hnew with ⟨hy, hd | ⟨hd, -⟩⟩
    · exact absurd hd not_mem_nil
    · exact ⟨hd, mem_singleton.mp hy⟩
  · obtain ⟨a, ha, -⟩ := (Amends.mem_marksOf h.listed).mp (last?_eq_some hdy).1
    cases ha.symm.trans hfresh
  · rw [readVersion, hver]

end Installs

/-! ## Calls -/

theorem succeeds_assign {s : State} {b : BlockId} (name : String) {x : Value} (hne : b ≠ entryBlock)
    (hb : (s.block? b).isSome) (hx : (s.inst? x.id).isSome) :
    Ends (assign b name x) s (fun _ _ => False) fun v t => (v, t) = s.assign b name x := by
  obtain ⟨blk, hb⟩ := Option.isSome_iff_exists.mp hb
  obtain ⟨i, hi⟩ := Option.isSome_iff_exists.mp hx
  unfold assign
  rw [if_neg hne]
  refine .bind (.bind (.get ?_))
  rw [hb]
  refine .pure (.bind (.get ?_))
  rw [hi]
  exact ends_step rfl

theorem succeeds_lookup {s : State} {b : BlockId} (name : String) (hne : b ≠ entryBlock)
    (hb : (s.block? b).isSome) :
    Ends (lookup b name) s (fun _ _ => False) fun z t => (z, t) = s.readAtEnd b name
      (some .readFirst) := by
  obtain ⟨blk, hb⟩ := Option.isSome_iff_exists.mp hb
  unfold lookup
  rw [if_neg hne]
  refine .bind (.bind (.get ?_))
  rw [hb]
  exact .pure (ends_step rfl)

/-- After an assignment its version is seen exactly at the ends of the blocks that its block
reaches, and what is seen of other variables and elsewhere is as it was. A read of a variable that
nothing is seen of puts its zero into the first block with code. If no version stands for an
instruction that is yet to come, the zero is seen exactly at the ends of those blocks with code
where nothing was, and all else that is seen is as it was. -/
theorem visibility (settings : Settings) (calls : List Call) (hcalls : AsGiven settings calls)
    (b : BlockId) (name : String) (hne : b ≠ entryBlock)
    (hb : ((State.after settings calls).block? b).isSome) :
    (∀ x : Value, (State.after settings calls).isLive x.id = true →
      ∃ v t, assign b name x (State.after settings calls) = .ok v t ∧ ∀ c y,
        (t.visible? c y = some v ↔ y = name ∧ (State.after settings calls).Reaches b c name) ∧
        (¬ (y = name ∧ (State.after settings calls).Reaches b c name) →
          t.visible? c y = (State.after settings calls).visible? c y)) ∧
    ((State.after settings calls).Settled → (State.after settings calls).visible? b name = none →
      ∃ z t v ver, lookup b name (State.after settings calls) = .ok z t ∧ z.id = ver.inst ∧
        t.versions[v]? = some ver ∧ ver.var = name ∧ ver.number = 0 ∧ ver.block = startBlock ∧
        t.IsNumber ver.inst 0 ∧ ∀ c y,
          (t.visible? c y = some v ↔ y = name ∧ c ≠ entryBlock ∧
            ((State.after settings calls).block? c).isSome ∧ (State.after settings calls).visible? c
            name = none) ∧
          (¬ (y = name ∧ c ≠ entryBlock ∧ ((State.after settings calls).block? c).isSome ∧
            (State.after settings calls).visible? c name = none) →
              t.visible? c y = (State.after settings calls).visible? c y)) := by
  have hw := wellFormed_after settings calls
  have hr := chained_after settings hcalls
  generalize State.after settings calls = s at *
  constructor
  · intro x hx
    have hinst : (s.inst? x.id).isSome := by
      obtain ⟨i, hi, -⟩ := (Option.any_eq_true ..).mp hx
      rw [hi]
      rfl
    obtain ⟨v, t, hok, hvt⟩ := (succeeds_assign name hne hb hinst).exists_ok
    have h := installs_assign name hw hb hx
    rw [← hvt] at h
    exact ⟨v, t, hok, fun c y => ⟨h.visible?_iff hw c y, (h.visible? hw c y).2⟩⟩
  · intro hs hv
    obtain ⟨z, t, hok, hzt⟩ := (succeeds_lookup name hne hb).exists_ok
    obtain ⟨v, ver, h, hver, hvar, hnumber, hblock, hzero, hz, hreach⟩ :=
      installs_readAtEnd hw hr hs hb hne hv (some .readFirst)
    rw [← hzt] at h hver hzero hz
    refine ⟨z, t, v, ver, hok, hz, hver, hvar, hnumber, hblock, hzero, fun c y => ?_⟩
    rw [← hreach]
    exact ⟨h.visible?_iff hw c y, (h.visible? hw c y).2⟩

/-- One of two paths has assigned a variable already. What is assigned in front of them is seen on
the other one and behind them, and so is the zero that a read behind them makes. -/
theorem visibility_forked :
    (∃ v t, assign startBlock "y" ⟨2, .immediate 2 2⟩ (State.after {} forked) = .ok v t ∧
      t.visible? 3 "y" = some v ∧ t.visible? 2 "y" = (State.after {} forked).visible? 2 "y") ∧
    ∃ z t v, lookup 4 "y" (State.after {} forked) = .ok z t ∧ t.visible? 3 "y" = some v ∧
      t.visible? 2 "y" = (State.after {} forked).visible? 2 "y" := by
  have hcalls : AsGiven {} forked := asGiven_of_start {} (by simp [forked])
  obtain ⟨v, t, hok, hseen⟩ := (visibility {} forked hcalls startBlock "y" (by decide)
    (by decide +kernel)).1
    ⟨2, .immediate 2 2⟩ (by decide +kernel)
  obtain ⟨z, t', v', ver, hok', -, -, -, -, -, -, hseen'⟩ :=
    (visibility {} forked hcalls 4 "y" (by decide)
    (by decide +kernel)).2 (by decide +kernel) (by decide +kernel)
  exact ⟨⟨v, t, hok, (hseen 3 "y").1.mpr (by decide +kernel), (hseen 2 "y").2 (by decide +kernel)⟩,
    z, t', v', hok', (hseen' 3 "y").1.mpr (by decide +kernel), (hseen' 2 "y").2 (by decide +kernel)⟩

/-- Calls after which a version of a loop stands for an instruction that is yet to come, as the
caller made up the provenance of its value. -/
def awaiting : List Call :=
  [.const 1, .assign startBlock "x" ⟨1, .immediate 1 1⟩, .openJoin .loop,
    .newBlock { kind := .loopHeader, join := .loop, dominators := [startBlock, entryBlock],
                parents := [startBlock] },
    .assign 2 "x" ⟨1, .unknown 3⟩, .reconcileLoop 2 2 0]

/-- The constant of a zero is the instruction that the version of another variable stands for, which
is seen from then on. -/
theorem shown_by_zero : AsGiven {} awaiting ∧ ¬ (State.after {} awaiting).Settled ∧
    (State.after {} awaiting).visible? startBlock "z" = none ∧ (State.after {} awaiting).visible? 2
    "x" = some 2 ∧ ∃ z t, lookup startBlock "z" (State.after {} awaiting) = .ok z t ∧
      t.visible? 2 "x" = some 1 := by
  refine ⟨asGiven_of_start {}
    (by simp [awaiting]), by decide +kernel, by decide +kernel, by decide +kernel,
    ⟨3, .read "z" 0 startBlock 3⟩, State.after {} (awaiting ++ [.lookup startBlock "z"]),
    ?_, by decide +kernel⟩
  rfl

end SingleAssignment.Builder
