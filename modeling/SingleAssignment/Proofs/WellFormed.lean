import SingleAssignment.Proofs.Placement

/-!
# Well-formed states

What every call of a builder leaves as it should be, whatever calls came before. Edges are known at
both ends (`Wired`); timelines hold each instruction and each version once, in its block, phis and
heads first (`Listed`); versions of a variable in a block have their own numbers (`Versioned`); and
what the blocks have recorded is so (`Known`).

Version 0 is apart. It is put into the first block with code whenever no version is visible, so that
there may be two of it if the first is not alive any more. That takes an edge back to this block,
which makes it part of a loop (`State.Fenced`).
-/

namespace SingleAssignment.Builder

open Code List

/-! ## Lists with the marked elements in front -/

section Leading

variable {α : Type} {R : α → α → Prop} {P : α → Bool} {A B l : List α} {x : α}

theorem pairwise_insert_iff : (A ++ x :: B).Pairwise R ↔
    (A ++ B).Pairwise R ∧ (∀ a ∈ A, R a x) ∧ ∀ b ∈ B, R x b := by
  simp only [pairwise_append, pairwise_cons, mem_cons]
  constructor
  · rintro ⟨hA, ⟨hx, hB⟩, hAB⟩
    exact ⟨⟨hA, hB, fun a ha b hb => hAB a ha b (.inr hb)⟩, fun a ha => hAB a ha x (.inl rfl), hx⟩
  · rintro ⟨⟨hA, hB, hAB⟩, hx, hx'⟩
    refine ⟨hA, ⟨hx', hB⟩, fun a ha b hb => ?_⟩
    rcases hb with rfl | hb
    · exact hx a ha
    · exact hAB a ha b hb

/-- Behind the marked elements in front there is no marked one. -/
theorem not_of_mem_drop (h : l.Pairwise fun x y => P y = true → P x = true) {n : Nat}
    (hn : (l.takeWhile P).length ≤ n) : ∀ y ∈ l.drop n, P y = false := by
  induction l generalizing n with
  | nil => simp
  | cons a l ih =>
    intro y hy
    obtain ⟨ha, hl⟩ := pairwise_cons.mp h
    cases hP : P a with
    | true =>
      rw [takeWhile_cons_of_pos hP, length_cons] at hn
      obtain ⟨m, rfl⟩ : ∃ m, n = m + 1 := ⟨n - 1, by omega⟩
      exact ih hl (Nat.le_of_succ_le_succ hn) y hy
    | false =>
      rcases mem_cons.mp (mem_of_mem_drop hy) with rfl | hy
      · exact hP
      · exact Bool.eq_false_iff.mpr fun hPy => absurd (ha y hy hPy) (by simp [hP])

theorem of_mem_take (h : x ∈ l.take (l.takeWhile P).length) : P x = true := by
  rw [← prefix_iff_eq_take.mp ( takeWhile_prefix P)] at h
  exact all_eq_true.mp all_takeWhile x h

end Leading

namespace State

/-- The block that a slot belongs to. -/
def ownerOf (s : State) : Slot → Option BlockId
  | .inst id => (s.inst? id).map (·.block)
  | .mark v => (s.versions[v]?).map (·.block)

/-- Whether a slot holds a phi or marks a head. -/
def isLead (s : State) : Slot → Bool
  | .inst id => (s.inst? id).any (·.op == .phi)
  | .mark v => (s.versions[v]?).any (·.isHead)

/-- The empty instruction that a branch goes to as long as a block has no other. -/
def holderOf (s : State) (b : BlockId) : Option InstId :=
  (s.block? b).bind (·.placeholder)

/-- Whether an id names a constant. -/
def IsConst (s : State) (id : InstId) : Prop :=
  ∃ i, s.inst? id = some i ∧ i.op = .const

/-- An instruction is the constant `n`. -/
def IsNumber (s : State) (id : InstId) (n : Int64) : Prop :=
  ∃ i, s.inst? id = some i ∧ i.op = .const ∧ i.x = .literal n

theorem IsNumber.isConst {s : State} {id : InstId} {n : Int64} (h : s.IsNumber id n) :
    s.IsConst id := by
  obtain ⟨i, hi, hop, -⟩ := h
  exact ⟨i, hi, hop⟩

/-- The first block with code dominates all others with code. -/
def Dominated (s : State) : Prop :=
  ∀ b blk, s.block? b = some blk → b ≠ entryBlock → startBlock ∈ blk.dominators

/-- The block of the constants is not entered, the first block with code only from there, and that
block dominates all others with code. -/
structure Fenced (s : State) : Prop where
  entry : ∀ blk, s.block? entryBlock = some blk → blk.parents = []
  start : ∀ blk, s.block? startBlock = some blk → ∀ p ∈ blk.parents, p = entryBlock
  dominates : s.Dominated

theorem leadingRun_eq_takeWhile (s : State) (b : BlockId) :
    s.leadingRun b = ((s.timelineOf b).takeWhile s.isLead).length := by
  unfold leadingRun
  congr 2

end State

/-- Whether an instruction has no operands and is not retired. -/
def IsBlank (i : Instruction) : Prop :=
  i.x = .none ∧ i.y = .none ∧ i.active = true

/-! ## The four parts -/

/-- Edges are known at both ends, once each, and a block is the first of its dominators. -/
structure Wired (s : State) : Prop where
  entry : (s.block? entryBlock).isSome
  start : (s.block? startBlock).isSome
  id_eq : ∀ {b blk}, s.block? b = some blk → blk.id = b
  doms : ∀ {b blk}, s.block? b = some blk → ∃ ds, blk.dominators = b :: ds
  first : ∀ {b blk}, b = entryBlock ∨ b = startBlock → s.block? b = some blk → blk.join = .none
  child : ∀ {p c P}, s.block? p = some P → c ∈ P.children → ∃ C, s.block? c = some C ∧ p ∈ C.parents
  parent : ∀ {p c C}, s.block? c = some C → p ∈ C.parents → ∃ P, s.block? p = some P ∧
    c ∈ P.children
  nodup : ∀ {b blk}, s.block? b = some blk → blk.parents.Nodup ∧ blk.children.Nodup

/-- Timelines hold each instruction and each version once, in the block it belongs to, and tables
agree with them. Phis and heads come first, and phis by age. -/
structure Listed (s : State) : Prop where
  id_eq : ∀ {id i}, s.inst? id = some i → i.id = id
  mem_iff : ∀ b x, x ∈ s.timelineOf b ↔ s.ownerOf x = some b
  nodup : ∀ b, (s.timelineOf b).Nodup
  lead : ∀ b, (s.timelineOf b).Pairwise fun x y => s.isLead y = true → s.isLead x = true
  phis : ∀ b, (s.timelineOf b).Pairwise fun x y => ∀ i j, x = .inst i → y = .inst j →
    s.isLead x = true → s.isLead y = true → i < j
  tabled : s.Tabled

/-- A variable has one head in a block at most, and each of its versions there a number of its own.
Only version 0, which stands in the first block with code, may be there again, and while that block
is entered once it is not. -/
structure Versioned (s : State) : Prop where
  head : ∀ {v w : VersionId} {a c}, s.versions[v]? = some a → s.versions[w]? = some c →
    a.isHead = true → c.isHead = true → a.block = c.block → a.var = c.var → v = w
  number : ∀ {v w : VersionId} {a c}, s.versions[v]? = some a → s.versions[w]? = some c →
    a.block = c.block → a.var = c.var → a.number = c.number → v = w ∨ a.number = 0
  least : ∀ {v : VersionId} {a}, s.versions[v]? = some a →
    0 ≤ a.number ∧ (a.number = 0 → a.block = startBlock ∧ a.isHead = false)
  phi : ∀ {v : VersionId} {a id}, s.versions[v]? = some a → a.phi = some id →
    ∃ i, s.inst? id = some i ∧ i.op = .phi
  zero : s.Fenced → ∀ {v : VersionId} {a}, s.versions[v]? = some a → a.number = 0 → s.IsConst a.inst
  zero_inj : s.Fenced → ∀ {v w : VersionId} {a c}, s.versions[v]? = some a →
    s.versions[w]? = some c → a.number = 0 → c.number = 0 → a.var = c.var → v = w

/-- What is recorded is so: values by instructions of the block with the operation and the operands,
constants once each, an empty instruction that holds a place by its block, and branches that
wait. -/
structure Known (s : State) : Prop where
  entry : ∀ {b e}, e ∈ s.entriesOf b → e.op ≠ .phi → ∃ i, s.inst? e.id = some i ∧ i.block = b ∧
    i.op = e.op ∧ e.op.isNumbered = true ∧ i.x = e.x ∧ i.y = e.y
  const : ∀ {id i}, s.inst? id = some i → i.op = .const → i.block = entryBlock ∧ i.active = true ∧
    ∃ n, i.x = .literal n ∧ ∃ e ∈ s.entriesOf entryBlock, e.op = .const ∧ e.id = id ∧ e.x = i.x
  const_inj : ∀ {id id' i i'}, s.inst? id = some i → s.inst? id' = some i' → i.op = .const →
    i'.op = .const → i.x = i'.x → id = id'
  holder : ∀ {b p}, s.holderOf b = some p →
    ∃ i, s.inst? p = some i ∧ i.block = b ∧ (i.op = .empty → IsBlank i)
  deferral : ∀ d ∈ s.deferrals.toList, (s.block? d.target).isSome ∧
    ∃ i, s.inst? d.inst = some i ∧ i.op.isBranch = true

/-- A state as every call leaves it. -/
structure WellFormed (s : State) : Prop where
  wired : Wired s
  listed : Listed s
  versioned : Versioned s
  known : Known s

/-- An instruction stays what it is. A numbered one keeps its operands and where they came from, and
once retired it is so for good; one that is neither numbered nor a phi is not retired. Only an empty
one without operands may become another, which is no phi. -/
structure Outlives (i i' : Instruction) : Prop where
  block : i'.block = i.block
  operands : i.op.isNumbered = true → i'.x = i.x ∧ i'.y = i.y
  sources : i.op.isNumbered = true → i'.srcX = i.srcX ∧ i'.srcY = i.srcY
  retired : i.op.isNumbered = true → i'.active = true → i.active = true
  lasting : i.op.isNumbered = false → i.op ≠ .phi → i.op ≠ .empty → i'.active = i.active
  op : (i'.op = i.op ∧ (i.op = .empty → IsBlank i' → IsBlank i)) ∨
    (i.op = .empty ∧ IsBlank i ∧ i'.op ≠ .phi)

namespace Outlives

variable {i i' i'' : Instruction}

theorem refl (i : Instruction) : Outlives i i :=
  ⟨rfl, fun _ => ⟨rfl, rfl⟩, fun _ => ⟨rfl, rfl⟩, fun _ h => h, fun _ _ _ => rfl,
    .inl ⟨rfl, fun _ h => h⟩⟩

theorem op_eq (h : Outlives i i') (hi : i.op ≠ .empty) : i'.op = i.op :=
  h.op.elim (·.1) fun he => absurd he.1 hi

theorem op_eq_of_isNumbered (h : Outlives i i') (hnum : i.op.isNumbered = true) : i'.op = i.op := by
  refine h.op_eq fun he => ?_
  rw [he] at hnum
  cases hnum

theorem trans (h : Outlives i i') (h' : Outlives i' i'') : Outlives i i'' := by
  have hnum' : i.op.isNumbered = true → i'.op.isNumbered = true := fun hnum => by
    rwa [h.op_eq_of_isNumbered hnum]
  refine ⟨h'.block.trans h.block, fun hnum => ?_, fun hnum => ?_,
    fun hnum ha => h.retired hnum (h'.retired (hnum' hnum) ha), fun hnum hphi hempty => ?_, ?_⟩
  · obtain ⟨hx, hy⟩ := h.operands hnum
    obtain ⟨hx', hy'⟩ := h'.operands (hnum' hnum)
    exact ⟨hx'.trans hx, hy'.trans hy⟩
  · obtain ⟨hx, hy⟩ := h.sources hnum
    obtain ⟨hx', hy'⟩ := h'.sources (hnum' hnum)
    exact ⟨hx'.trans hx, hy'.trans hy⟩
  · rw [← h.lasting hnum hphi hempty]
    rw [← h.op_eq hempty] at hnum hphi hempty
    exact h'.lasting hnum hphi hempty
  rcases h.op with ⟨hop, hblank⟩ | ⟨hop, hblank, hphi⟩
  · rcases h'.op with ⟨hop', hblank'⟩ | ⟨hop', hblank', hphi'⟩
    · exact .inl ⟨hop'.trans hop, fun he hb => hblank he (hblank' (hop.trans he) hb)⟩
    · exact .inr ⟨hop.symm.trans hop', hblank (hop.symm.trans hop') hblank', hphi'⟩
  · rcases h'.op with ⟨hop', -⟩ | ⟨-, -, hphi'⟩
    · exact .inr ⟨hop, hblank, hop' ▸ hphi⟩
    · exact .inr ⟨hop, hblank, hphi'⟩

end Outlives

theorem State.IsNumber.mono {s t : State} {id : InstId} {n : Int64} (hn : s.IsNumber id n)
    (h : ∀ {id i}, s.inst? id = some i → ∃ i', t.inst? id = some i' ∧ Outlives i i') :
    t.IsNumber id n := by
  obtain ⟨i, hi, hop, hx⟩ := hn
  obtain ⟨i', hi', ho⟩ := h hi
  have hnum : i.op.isNumbered = true := by rw [hop]; rfl
  exact ⟨i', hi', (ho.op_eq_of_isNumbered hnum).trans hop, (ho.operands hnum).1.trans hx⟩

theorem isSome_of_shape {s t : State}
    (hg : ∀ b, (t.block? b).map Block.shape = (s.block? b).map Block.shape) (b : BlockId) :
    (t.block? b).isSome = (s.block? b).isSome := by
  have := congrArg Option.isSome (hg b)
  rwa [Option.isSome_map, Option.isSome_map] at this

/-- Work in the blocks of a well-formed state: edges stay, and so does what instructions and
versions are. -/
structure Advances (s t : State) : Prop where
  wellFormed : WellFormed t
  graph : ∀ b, (t.block? b).map Block.shape = (s.block? b).map Block.shape
  inst : ∀ {id i}, s.inst? id = some i → ∃ i', t.inst? id = some i' ∧ Outlives i i'
  version : ∀ {v : VersionId} {a}, s.versions[v]? = some a → ∃ a', t.versions[v]? = some a' ∧
    a'.var = a.var ∧ a'.number = a.number ∧ a'.block = a.block ∧ a'.isHead = a.isHead

namespace Advances

variable {s t u : State}

theorem refl (h : WellFormed s) : Advances s s :=
  ⟨h, fun _ => rfl, fun {_ i} hi => ⟨i, hi, .refl i⟩, fun {_ a} ha => ⟨a, ha, rfl, rfl, rfl, rfl⟩⟩

theorem trans (h : Advances s t) (h' : Advances t u) : Advances s u := by
  refine ⟨h'.wellFormed, fun b => (h'.graph b).trans (h.graph b), fun {id i} hi => ?_,
    fun {v a} ha => ?_⟩
  · obtain ⟨i', hi', ho⟩ := h.inst hi
    obtain ⟨i'', hi'', ho'⟩ := h'.inst hi'
    exact ⟨i'', hi'', ho.trans ho'⟩
  · obtain ⟨a', ha', h₁, h₂, h₃, h₄⟩ := h.version ha
    obtain ⟨a'', ha'', h₁', h₂', h₃', h₄'⟩ := h'.version ha'
    exact ⟨a'', ha'', h₁'.trans h₁, h₂'.trans h₂, h₃'.trans h₃, h₄'.trans h₄⟩

theorem isSome_block {b : BlockId} (h : Advances s t) (hb : (s.block? b).isSome) :
    (t.block? b).isSome :=
  (isSome_of_shape h.graph b).trans hb

end Advances

/-! ## Edges -/

section Shape

variable {s t : State} {b : BlockId} {blk : Block}

theorem exists_shape (hg : ∀ b, (t.block? b).map Block.shape = (s.block? b).map Block.shape)
    (hb : t.block? b = some blk) : ∃ blk₀, s.block? b = some blk₀ ∧ blk₀.shape = blk.shape := by
  have h := hg b
  rw [hb, Option.map_some] at h
  exact Option.map_eq_some_iff.mp h.symm

theorem Block.shape_eq {blk₀ : Block} (h : blk₀.shape = blk.shape) : blk₀.id = blk.id ∧
    blk₀.join = blk.join ∧ blk₀.parents = blk.parents ∧ blk₀.children = blk.children ∧
    blk₀.dominators = blk.dominators :=
  ⟨congrArg (·.id) h, congrArg (·.join) h, congrArg (·.parents) h, congrArg (·.children) h,
    congrArg (·.dominators) h⟩

theorem Wired.congr (h : Wired s)
    (hg : ∀ b, (t.block? b).map Block.shape = (s.block? b).map Block.shape) : Wired t := by
  have hsome := isSome_of_shape hg
  have hback : ∀ b, (s.block? b).map Block.shape = (t.block? b).map Block.shape :=
    fun b => (hg b).symm
  refine ⟨(hsome _).trans h.entry, (hsome _).trans h.start, fun {b blk} hb => ?_,
    fun {b blk} hb => ?_, fun {b blk} hfirst hb => ?_, fun {p c P} hp hc => ?_,
    fun {p c C} hc hp => ?_, fun {b blk} hb => ?_⟩
  · obtain ⟨blk₀, hb₀, hs⟩ := exists_shape hg hb
    rw [← (Block.shape_eq hs).1]
    exact h.id_eq hb₀
  · obtain ⟨blk₀, hb₀, hs⟩ := exists_shape hg hb
    rw [← (Block.shape_eq hs).2.2.2.2]
    exact h.doms hb₀
  · obtain ⟨blk₀, hb₀, hs⟩ := exists_shape hg hb
    rw [← (Block.shape_eq hs).2.1]
    exact h.first hfirst hb₀
  · obtain ⟨P₀, hp₀, hs⟩ := exists_shape hg hp
    rw [← (Block.shape_eq hs).2.2.2.1] at hc
    obtain ⟨C, hC, hmem⟩ := h.child hp₀ hc
    obtain ⟨C', hC', hs'⟩ := exists_shape hback hC
    exact ⟨C', hC', (Block.shape_eq hs').2.2.1 ▸ hmem⟩
  · obtain ⟨C₀, hc₀, hs⟩ := exists_shape hg hc
    rw [← (Block.shape_eq hs).2.2.1] at hp
    obtain ⟨P, hP, hmem⟩ := h.parent hc₀ hp
    obtain ⟨P', hP', hs'⟩ := exists_shape hback hP
    exact ⟨P', hP', (Block.shape_eq hs').2.2.2.1 ▸ hmem⟩
  · obtain ⟨blk₀, hb₀, hs⟩ := exists_shape hg hb
    rw [← (Block.shape_eq hs).2.2.1, ← (Block.shape_eq hs).2.2.2.1]
    exact h.nodup hb₀

theorem State.Fenced.congr (hg : ∀ b, (t.block? b).map Block.shape = (s.block? b).map Block.shape)
    (h : t.Fenced) : s.Fenced := by
  have hg : ∀ b, (s.block? b).map Block.shape = (t.block? b).map Block.shape := fun b => (hg b).symm
  refine ⟨fun blk hb => ?_, fun blk hb => ?_, fun b blk hb hne => ?_⟩
  · obtain ⟨blk₀, hb₀, hs⟩ := exists_shape hg hb
    exact (Block.shape_eq hs).2.2.1 ▸ h.entry blk₀ hb₀
  · obtain ⟨blk₀, hb₀, hs⟩ := exists_shape hg hb
    exact (Block.shape_eq hs).2.2.1 ▸ h.start blk₀ hb₀
  · obtain ⟨blk₀, hb₀, hs⟩ := exists_shape hg hb
    exact (Block.shape_eq hs).2.2.2.2 ▸ h.dominates b blk₀ hb₀ hne

end Shape

/-! ## Timelines -/

namespace Listed

variable {s t : State} {b : BlockId} {x : Slot} {L₁ L₂ : List Slot}

theorem congr (h : Listed s) (hid : ∀ {id i}, t.inst? id = some i → i.id = id)
    (htime : ∀ b, t.timelineOf b = s.timelineOf b) (howner : ∀ x, t.ownerOf x = s.ownerOf x)
    (hlead : ∀ x, t.isLead x = s.isLead x) (htabled : t.Tabled) : Listed t := by
  refine ⟨hid, fun b x => ?_, fun b => ?_, fun b => ?_, fun b => ?_, htabled⟩
  · rw [htime, howner]
    exact h.mem_iff b x
  · rw [htime]
    exact h.nodup b
  · rw [htime]
    exact (h.lead b).imp fun hxy => by simpa only [hlead] using hxy
  · rw [htime]
    exact (h.phis b).imp fun hxy => by simpa only [hlead] using hxy

/-- One slot of a block is new, or is moved, behind the phis and heads or as the last of them. -/
theorem insert (h : Listed s) (hid : ∀ {id i}, t.inst? id = some i → i.id = id)
    (htime : ∀ b', t.timelineOf b' = if b' = b then L₁ ++ x :: L₂ else s.timelineOf b')
    (hL : L₁ ++ L₂ = (s.timelineOf b).erase x)
    (howner : ∀ y, t.ownerOf y = if y = x then some b else s.ownerOf y)
    (hold : ∀ c, s.ownerOf x = some c → c = b) (hlead : ∀ y, y ≠ x → t.isLead y = s.isLead y)
    (hafter : ∀ y ∈ L₂, s.isLead y = false)
    (hbefore : t.isLead x = true → ∀ y ∈ L₁, s.isLead y = true)
    (hage : t.isLead x = true → ∀ i j, .inst i ∈ L₁ → x = .inst j → i < j) (htabled : t.Tabled) :
    Listed t := by
  have hnodup : (L₁ ++ L₂).Nodup := hL ▸ (h.nodup b).erase x
  have hx : x ∉ L₁ ++ L₂ := by
    rw [hL]
    exact (h.nodup b).not_mem_erase
  have hne : ∀ y ∈ L₁ ++ L₂, y ≠ x := fun y hy he => hx (he ▸ hy)
  have hsub : (L₁ ++ L₂).Sublist (s.timelineOf b) := hL ▸ erase_sublist
  refine ⟨hid, fun b' y => ?_, fun b' => ?_, fun b' => ?_, fun b' => ?_, htabled⟩
  · rw [htime, howner]
    split
    · rename_i hb
      subst hb
      rw [mem_insert_iff, hL, (h.nodup b').mem_erase_iff, h.mem_iff]
      split
      · simp_all
      · simp_all
    · rename_i hb
      rw [h.mem_iff]
      split
      · rename_i hy
        subst hy
        constructor
        · intro ho
          exact absurd (hold b' ho) hb
        · intro ho
          exact absurd (Option.some.inj ho).symm hb
      · rfl
  · rw [htime]
    split
    · exact nodup_insert_iff.mpr ⟨hx, hnodup⟩
    · exact h.nodup b'
  · rw [htime]
    have hsame : ∀ {l : List Slot}, x ∉ l → l.Pairwise (fun y z => s.isLead z = true →
      s.isLead y = true) → l.Pairwise fun y z => t.isLead z = true → t.isLead y = true := by
      intro l hl hp
      refine hp.imp_of_mem fun {y z} hy hz hyz => ?_
      rwa [hlead y fun he => hl (he ▸ hy), hlead z fun he => hl (he ▸ hz)]
    split
    · rw [pairwise_insert_iff]
      refine ⟨hsame hx ((h.lead b).sublist hsub), fun y hy hxl => ?_, fun y hy hyl => ?_⟩
      · rw [hlead y (hne y (mem_append_left _ hy))]
        exact hbefore hxl y hy
      · rw [hlead y (hne y (mem_append_right _ hy)), hafter y hy] at hyl
        cases hyl
    · rename_i hb
      refine hsame (fun hm => hb (hold b' ((h.mem_iff b' x).mp hm))) (h.lead b')
  · rw [htime]
    have hsame : ∀ {l : List Slot}, x ∉ l →
        l.Pairwise (fun y z => ∀ i j, y = .inst i → z = .inst j → s.isLead y = true →
          s.isLead z = true → i < j) →
        l.Pairwise fun y z => ∀ i j, y = .inst i → z = .inst j → t.isLead y = true →
          t.isLead z = true → i < j := by
      intro l hl hp
      refine hp.imp_of_mem fun {y z} hy hz hyz => ?_
      rwa [hlead y fun he => hl (he ▸ hy), hlead z fun he => hl (he ▸ hz)]
    split
    · rw [pairwise_insert_iff]
      refine ⟨hsame hx ((h.phis b).sublist hsub), fun y hy i j hi hj _ hxl => ?_,
        fun y hy i j _ _ _ hyl => ?_⟩
      · exact hage hxl i j (hi ▸ hy) hj
      · rw [hlead y (hne y (mem_append_right _ hy)), hafter y hy] at hyl
        cases hyl
    · rename_i hb
      exact hsame (fun hm => hb (hold b' ((h.mem_iff b' x).mp hm))) (h.phis b')

/-- A slot that is no phi and no head stands behind those. -/
theorem leadingRun_le {n : Nat} (hn : (s.timelineOf b)[n]? = some x)
    (hx : s.isLead x = false) : s.leadingRun b ≤ n := by
  rw [State.leadingRun_eq_takeWhile]
  by_contra hlt
  obtain ⟨hbound, hget⟩ := List.getElem?_eq_some_iff.mp hn
  have hmem : x ∈ (s.timelineOf b).take ((s.timelineOf b).takeWhile s.isLead).length := by
    exact mem_take_iff_getElem.mpr ⟨n, by omega, hget⟩
  rw [of_mem_take hmem] at hx
  cases hx

theorem leadingRun_le_endOf (b : BlockId) : s.leadingRun b ≤ s.endOf b := by
  rw [State.leadingRun_eq_takeWhile, State.endOf]
  exact (takeWhile_sublist _).length_le

end Listed

/-! ## Versions -/

theorem Versioned.mono {s t : State} (h : Versioned s) (hversions : t.versions = s.versions)
    (hfenced : t.Fenced → s.Fenced)
    (hinst : ∀ {id i}, s.inst? id = some i → ∃ i', t.inst? id = some i' ∧ Outlives i i') :
    Versioned t := by
  refine ⟨?_, ?_, ?_, fun {v a id} ha hp => ?_, fun hf {v a} ha hz => ?_, fun hf => ?_⟩
  · rw [hversions]
    exact h.head
  · rw [hversions]
    exact h.number
  · rw [hversions]
    exact h.least
  · rw [hversions] at ha
    obtain ⟨i, hi, hop⟩ := h.phi ha hp
    obtain ⟨i', hi', ho⟩ := hinst hi
    exact ⟨i', hi', (ho.op_eq (by rw [hop]; intro he; cases he)).trans hop⟩
  · rw [hversions] at ha
    obtain ⟨i, hi, hop⟩ := h.zero (hfenced hf) ha hz
    obtain ⟨i', hi', ho⟩ := hinst hi
    exact ⟨i', hi', (ho.op_eq (by rw [hop]; intro he; cases he)).trans hop⟩
  · rw [hversions]
    exact h.zero_inj (hfenced hf)

/-! ## Placing instructions -/

/-- A drafted instruction of a block was put in: it is new, or takes the place of an empty one. -/
structure Placed (s t : State) (b : BlockId) (d : State.Draft) (id : InstId) : Prop where
  inst : ∃ i, (∀ id', t.inst? id' = if id' = id then some i else s.inst? id') ∧ i.op = d.op ∧
    i.x = d.x ∧ i.y = d.y ∧ i.block = b ∧ i.active = true
  fresh : ∀ i, s.inst? id = some i → i.block = b ∧ i.op = .empty ∧ IsBlank i ∧ d.op ≠ .phi
  listed : Listed t
  graph : ∀ b', (t.block? b').map Block.shape = (s.block? b').map Block.shape
  entries : ∀ b', t.entriesOf b' = s.entriesOf b'
  holder : ∀ b' p, t.holderOf b' = some p → s.holderOf b' = some p ∧ p ≠ id
  versions : t.versions = s.versions
  deferrals : t.deferrals = s.deferrals

namespace State

variable {s : State} {b : BlockId} {f : Block → Block}

theorem timelineOf_modifyBlock_of_eq (hf : ∀ blk, (f blk).timeline = blk.timeline) (b' : BlockId) :
    (s.modifyBlock b f).timelineOf b' = s.timelineOf b' := by
  rw [timelineOf, map_block?_modifyBlock _ hf]
  rfl

theorem tableOf_modifyBlock_of_eq (hf : ∀ blk, (f blk).table = blk.table) (b' : BlockId) :
    (s.modifyBlock b f).tableOf b' = s.tableOf b' := by
  rw [tableOf, map_block?_modifyBlock _ hf]
  rfl

theorem entriesOf_modifyBlock_of_eq (hf : ∀ blk, (f blk).entries = blk.entries) (b' : BlockId) :
    (s.modifyBlock b f).entriesOf b' = s.entriesOf b' := by
  rw [entriesOf, map_block?_modifyBlock _ hf]
  rfl

@[simp] theorem deferrals_modifyBlock (s : State) (b : BlockId) (f : Block → Block) :
    (s.modifyBlock b f).deferrals = s.deferrals := by
  unfold modifyBlock
  split <;> rfl

@[simp] theorem deferrals_modifyInst (s : State) (id : InstId) (f : Instruction → Instruction) :
    (s.modifyInst id f).deferrals = s.deferrals := by
  unfold modifyInst
  split <;> rfl

theorem holderOf_modifyBlock (hf : ∀ blk, (f blk).placeholder = blk.placeholder) (b' : BlockId) :
    (s.modifyBlock b f).holderOf b' = s.holderOf b' := by
  unfold holderOf
  rw [block?_modifyBlock]
  split
  · rename_i h
    subst h
    cases s.block? b' <;> simp [hf]
  · rfl

end State

section Insert

variable {s : State} {b : BlockId} {blk : Block} {d : State.Draft} {pos : Nat}

open State

theorem Listed.insertNew (h : Listed s) (hb : s.block? b = some blk) (hpos : s.leadingRun b ≤ pos)
    (hphi : d.op = .phi → pos = s.leadingRun b) : Listed (s.insertNew b d pos).2 := by
  have hinst := Timelines.inst?_insertNew s b d pos
  have hversions := Timelines.versions_insertNew s b d pos
  have hnone : s.inst? (s.insts.size + 1) = none := inst?_eq_none_of_size_lt (by lia)
  have hnew : s.ownerOf (.inst (s.insts.size + 1)) = none := by
    simp [ownerOf, hnone]
  have hnot : .inst (s.insts.size + 1) ∉ s.timelineOf b := by
    rw [h.mem_iff, hnew]
    exact fun he => by cases he
  refine h.insert (fun {id i} hi => ?_) (Timelines.timelineOf_insertNew d pos hb) ?_ (fun y => ?_)
    (fun c hc => ?_) (fun y hy => ?_) ?_ (fun hl => ?_) (fun _ i j hi hj => ?_)
    (h.tabled.congr (Timelines.filing_insertNew s b d pos) fun v => by rw [hversions])
  · rw [hinst] at hi
    split at hi
    · rename_i hid
      cases hi
      exact hid.symm
    · exact h.id_eq hi
  · rw [take_append_drop, erase_of_not_mem hnot]
  · cases y with
    | inst id =>
      simp only [ownerOf, hinst, Slot.inst.injEq]
      split <;> rfl
    | mark v =>
      simp [ownerOf, hversions]
  · rw [hnew] at hc
    cases hc
  · cases y with
    | inst id =>
      have hid : id ≠ s.insts.size + 1 := fun he => hy (by rw [he])
      simp only [isLead, hinst, if_neg hid]
    | mark v => simp only [isLead, hversions]
  · exact not_of_mem_drop (h.lead b) (leadingRun_eq_takeWhile s b ▸ hpos)
  · have hop : d.op = .phi := by
      simpa [isLead, hinst] using hl
    intro y hy
    rw [hphi hop, leadingRun_eq_takeWhile] at hy
    exact of_mem_take hy
  · obtain ⟨i', hi', -⟩ := Option.map_eq_some_iff.mp ((h.mem_iff b _).mp (mem_of_mem_take hi))
    cases hj
    by_contra hle
    rw [inst?_eq_none_of_size_lt (by lia)] at hi'
    cases hi'

/-- Drafts other than phis stand behind the phis and heads, and a phi is the last of these. -/
theorem WellFormed.insertNew (h : WellFormed s) (hb : s.block? b = some blk)
    (hpos : s.leadingRun b ≤ pos) (hphi : d.op = .phi → pos = s.leadingRun b) :
    Placed s (s.insertNew b d pos).2 b d (s.insertNew b d pos).1 := by
  have hmap := fun {α : Type} (g : Block → α) (hg : ∀ blk slot,
    g (blk.insertSlot pos slot) = g blk) =>
    Timelines.map_block?_insertNew d pos hb g hg
  have hnone : s.inst? (s.insts.size + 1) = none := inst?_eq_none_of_size_lt (by lia)
  refine ⟨⟨_, Timelines.inst?_insertNew s b d pos, rfl, rfl, rfl, rfl, rfl⟩, fun i hi => ?_,
    h.listed.insertNew hb hpos hphi, hmap Block.shape fun _ _ => rfl, fun b' => ?_,
    fun b' p hp => ?_, Timelines.versions_insertNew s b d pos, deferrals_modifyBlock _ _ _⟩
  · cases hnone.symm.trans hi
  · exact congrArg (Option.getD · []) (hmap (·.entries) (fun _ _ => rfl) b')
  · have hsame : s.holderOf b' = some p := by
      have hfield := holderOf_modifyBlock (s := (s.alloc b d).2) (b := b)
        (f := (·.insertSlot pos (.inst (s.insts.size + 1)))) (fun _ => rfl) b'
      exact hfield.symm.trans hp
    refine ⟨hsame, fun he => ?_⟩
    obtain ⟨i, hi, -⟩ := h.known.holder hsame
    rw [he] at hi
    cases hnone.symm.trans hi

end Insert

/-- A slot that is moved to a position behind the marked ones stands behind them. -/
theorem Block.timeline_moveSlot {blk : Block} {x : Slot} {P : Slot → Bool} (pos : Nat)
    (hx : x ∈ blk.timeline) (hnodup : blk.timeline.Nodup)
    (hlead : blk.timeline.Pairwise fun y z => P z = true → P y = true) (hPx : P x = false)
    (hpos : (blk.timeline.takeWhile P).length ≤ pos) :
    ∃ L₁ L₂, (blk.moveSlot x pos).timeline = L₁ ++ x :: L₂ ∧ L₁ ++ L₂ = blk.timeline.erase x ∧
      ∀ y ∈ L₂, P y = false := by
  obtain ⟨A, B, hAB⟩ := append_of_mem hx
  have hbehind := not_of_mem_drop hlead hpos
  rw [hAB] at hnodup hlead hbehind
  have hnot := (nodup_insert_iff.mp hnodup).1
  have hA : x ∉ A := fun h => hnot (mem_append_left _ h)
  have herase : (A ++ x :: B).eraseIdx A.length = A ++ B := by
    rw [eraseIdx_append_of_length_le (Nat.le_refl _)]
    simp
  have hB : ∀ y ∈ B, P y = false := by
    intro y hy
    have hxy := (pairwise_insert_iff.mp hlead).2.2 y hy
    exact Bool.eq_false_iff.mpr fun hPy => absurd (hxy hPy) (by simp [hPx])
  have hk : (A ++ x :: B).findIdx? (· == x) = some A.length := by
    rw [findIdx?_append, findIdx?_eq_none_iff.mpr]
    · simp [findIdx?_cons]
    · intro y hy
      exact beq_eq_false_iff_ne.mpr fun he => hA (he ▸ hy)
  simp only [moveSlot, hAB, hk, insertSlot, removeSlot, herase]
  refine ⟨_, _, rfl, ?_, fun y hy => ?_⟩
  · rw [take_append_drop, erase_append_right _ hA, erase_cons_head]
  · rw [drop_append] at hy
    rcases mem_append.mp hy with hy | hy
    · split at hy
      · rw [drop_eq_nil_of_le (by omega)] at hy
        cases hy
      · refine hbehind y ?_
        rw [drop_append]
        exact mem_append_left _ hy
    · exact hB y (mem_of_mem_drop hy)

section Place

variable {s : State} {b : BlockId} {blk : Block} {d : State.Draft} {pos : Nat}

open State

/-- An empty instruction as a draft. -/
def State.Draft.refill (d : State.Draft) (i : Instruction) : Instruction :=
  { i with op := d.op, x := d.x, y := d.y, srcX := d.srcX, srcY := d.srcY, active := true }

theorem State.overwrite_eq (s : State) (b : BlockId) (p : InstId) (d : Draft) (pos : Nat) :
    s.overwrite b p d pos = (s.modifyInst p d.refill).modifyBlock b (·.moveSlot (.inst p) pos) :=
  rfl

/-- A draft takes the place of an empty instruction, and moves it behind the phis and heads. -/
theorem WellFormed.overwrite (h : WellFormed s) (hb : s.block? b = some blk)
    (hpos : s.leadingRun b ≤ pos) (hd : d.op ≠ .phi) {p : InstId} {i : Instruction}
    (hi : s.inst? p = some i) (hop : i.op = .empty) (hblock : i.block = b) (hblank : IsBlank i)
    (hholder : ∀ b', s.holderOf b' ≠ some p) : Placed s (s.overwrite b p d pos) b d p := by
  rw [overwrite_eq]
  have hinst : ∀ id', ((s.modifyInst p d.refill).modifyBlock b (·.moveSlot (.inst p) pos)).inst?
    id' = if id' = p then some (d.refill i) else s.inst? id' := by
    intro id'
    rw [inst?_modifyBlock, inst?_modifyInst, hi]
    rfl
  have hbt : (s.modifyInst p d.refill).block? b = some blk := (block?_modifyInst s p _ b).trans hb
  have hversions : ((s.modifyInst p d.refill).modifyBlock b (·.moveSlot (.inst p) pos)).versions =
      s.versions := by
    rw [versions_modifyBlock, versions_modifyInst]
  have hmem : .inst p ∈ s.timelineOf b := by
    rw [h.listed.mem_iff]
    simp [ownerOf, hi, hblock]
  have htl := timelineOf_eq hb
  obtain ⟨L₁, L₂, hL, herase, hafter⟩ := Block.timeline_moveSlot (P := s.isLead)
    pos (htl ▸ hmem) (htl ▸ h.listed.nodup b) (htl ▸ h.listed.lead b)
    (show s.isLead (.inst p) = false by simp [isLead, hi, hop])
    (by rw [← htl, ← leadingRun_eq_takeWhile]; exact hpos)
  have htime : ∀ b', ((s.modifyInst p d.refill).modifyBlock b (·.moveSlot (.inst p) pos)).timelineOf
    b' = if b' = b then L₁ ++ .inst p :: L₂ else s.timelineOf b' := by
    intro b'
    rw [timelineOf_modifyBlock hbt, hL, timelineOf_modifyInst]
  have hfiling : ∀ b', ((s.modifyInst p d.refill).modifyBlock b (·.moveSlot (.inst p) pos)).filing
    b' = s.filing b' :=
    fun b' => (filing_moveSlot _ b b' p pos).trans (filing_modifyInst s p _ b')
  have hlead : ((s.modifyInst p d.refill).modifyBlock b (·.moveSlot (.inst p) pos)).isLead
    (.inst p) = false := by
    simpa [isLead, hi, Draft.refill] using hd
  refine ⟨⟨_, hinst, rfl, rfl, rfl, hblock, rfl⟩, fun j hj => ?_, ?_, fun b' => ?_, fun b' => ?_,
    fun b' q hq => ?_, hversions, by rw [deferrals_modifyBlock, deferrals_modifyInst]⟩
  · cases hi.symm.trans hj
    exact ⟨hblock, hop, hblank, hd⟩
  · refine h.listed.insert (fun {id j} hj => ?_) htime (by rw [herase, htl]) (fun y => ?_)
      (fun c hc => ?_) (fun y hy => ?_) hafter (fun hl => absurd hl (by simp [hlead]))
      (fun hl => absurd hl (by simp [hlead]))
      (h.listed.tabled.congr hfiling fun v => by rw [hversions])
    · rw [hinst] at hj
      split at hj
      · rename_i hid
        cases hj
        exact (h.listed.id_eq hi).trans hid.symm
      · exact h.listed.id_eq hj
    · cases y with
      | inst id =>
        simp only [ownerOf, hinst, Slot.inst.injEq]
        split
        · exact congrArg some hblock
        · rfl
      | mark v => simp [ownerOf]
    · exact (Option.some.inj (((h.listed.mem_iff b _).mp hmem).symm.trans hc)).symm
    · cases y with
      | inst id =>
        have hid : id ≠ p := fun he => hy (by rw [he])
        simp only [isLead, hinst, if_neg hid]
      | mark v => simp only [isLead, hversions]
  · rw [map_block?_modifyBlock Block.shape fun blk => Block.moveSlot_of Block.shape
      (fun _ _ _ => rfl) (fun _ _ => rfl) blk _ _, block?_modifyInst]
  · rw [entriesOf_modifyBlock_of_eq fun blk => Block.moveSlot_of (·.entries) (fun _ _ _ => rfl)
      (fun _ _ => rfl) blk _ _, entriesOf_modifyInst]
  · rw [holderOf_modifyBlock fun blk => Block.moveSlot_of (·.placeholder) (fun _ _ _ => rfl)
      (fun _ _ => rfl) blk _ _, holderOf, block?_modifyInst] at hq
    exact ⟨hq, fun he => hholder b' (he ▸ hq)⟩

/-- Books are kept otherwise: values recorded or forgotten, another empty instruction that holds a
place, more branches that wait. -/
structure Rebooks (s t : State) : Prop where
  inst : ∀ id, t.inst? id = s.inst? id
  versions : t.versions = s.versions
  timeline : ∀ b, t.timelineOf b = s.timelineOf b
  table : ∀ b, t.tableOf b = s.tableOf b
  entries : ∀ b e, e ∈ t.entriesOf b → e.op ≠ .phi → e ∈ s.entriesOf b ∨
    ∃ i, s.inst? e.id = some i ∧ i.block = b ∧ i.op = e.op ∧ e.op.isNumbered = true ∧
    i.x = e.x ∧ i.y = e.y
  consts : ∀ e ∈ s.entriesOf entryBlock, e.op = .const → e ∈ t.entriesOf entryBlock
  holder : ∀ b p, t.holderOf b = some p → s.holderOf b = some p ∨
    ∃ i, s.inst? p = some i ∧ i.block = b ∧ (i.op = .empty → IsBlank i)
  deferral : ∀ d ∈ t.deferrals.toList, d ∈ s.deferrals.toList ∨ (s.block? d.target).isSome ∧
    ∃ i, s.inst? d.inst = some i ∧ i.op.isBranch = true

theorem WellFormed.rewire {t : State} (h : WellFormed s) (hwired : Wired t)
    (hfenced : t.Fenced → s.Fenced) (hsome : ∀ b, (s.block? b).isSome → (t.block? b).isSome)
    (hbooks : Rebooks s t) : WellFormed t := by
  obtain ⟨hinst, hversions, htime, htable, hentries, hconsts, hholder, hdeferral⟩ := hbooks
  refine ⟨hwired, ?_,
    h.versioned.mono hversions hfenced fun {_ i} hi => ⟨i, (hinst _).trans hi, .refl i⟩, ?_⟩
  · refine h.listed.congr (fun {id i} hi => ?_) htime (fun x => ?_) (fun x => ?_)
      (h.listed.tabled.congr (fun b => by rw [filing, htime, htable, filing])
      fun v => by rw [hversions])
    · rw [hinst] at hi
      exact h.listed.id_eq hi
    · cases x <;> simp only [ownerOf, hinst, hversions]
    · cases x <;> simp only [isLead, hinst, hversions]
  · refine ⟨fun {b e} he hop => ?_, fun {id i} hi hop => ?_, ?_, fun {b p} hp => ?_, fun d hd => ?_⟩
    · simp only [hinst]
      exact (hentries b e he hop).elim (h.known.entry · hop) id
    · rw [hinst] at hi
      obtain ⟨hb, ha, n, hn, e, he, heop, hid, hx⟩ := h.known.const hi hop
      exact ⟨hb, ha, n, hn, e, hconsts e he heop, heop, hid, hx⟩
    · simp only [hinst]
      exact h.known.const_inj
    · simp only [hinst]
      exact (hholder b p hp).elim h.known.holder id
    · simp only [hinst]
      obtain ⟨hb, hi⟩ := (hdeferral d hd).elim (h.known.deferral d) id
      exact ⟨hsome _ hb, hi⟩

theorem WellFormed.congr {t : State} (h : WellFormed s)
    (hgraph : ∀ b, (t.block? b).map Block.shape = (s.block? b).map Block.shape)
    (hbooks : Rebooks s t) : WellFormed t :=
  h.rewire (h.wired.congr hgraph) (.congr hgraph) (fun b => (isSome_of_shape hgraph b).trans) hbooks

/-- The state without the placeholder of a block. -/
def State.clear (s : State) (b : BlockId) : State :=
  s.modifyBlock b fun blk => { blk with placeholder := none }

theorem State.holderOf_clear (s : State) (b b' : BlockId) :
    (s.clear b).holderOf b' = if b' = b then none else s.holderOf b' := by
  unfold holderOf clear
  rw [block?_modifyBlock]
  split
  · cases s.block? b <;> rfl
  · rfl

theorem State.shape_clear (s : State) (b b' : BlockId) :
    ((s.clear b).block? b').map Block.shape = (s.block? b').map Block.shape :=
  map_block?_modifyBlock (f := fun blk => { blk with placeholder := none }) Block.shape
    (fun _ => rfl) b'

@[simp] theorem State.timelineOf_clear (s : State) (b b' : BlockId) :
    (s.clear b).timelineOf b' = s.timelineOf b' :=
  timelineOf_modifyBlock_of_eq (f := fun blk => { blk with placeholder := none }) (fun _ => rfl) b'

@[simp] theorem State.tableOf_clear (s : State) (b b' : BlockId) :
    (s.clear b).tableOf b' = s.tableOf b' :=
  tableOf_modifyBlock_of_eq (f := fun blk => { blk with placeholder := none }) (fun _ => rfl) b'

@[simp] theorem State.entriesOf_clear (s : State) (b b' : BlockId) :
    (s.clear b).entriesOf b' = s.entriesOf b' :=
  entriesOf_modifyBlock_of_eq (f := fun blk => { blk with placeholder := none }) (fun _ => rfl) b'

@[simp] theorem State.inst?_clear (s : State) (b : BlockId) (id : InstId) :
    (s.clear b).inst? id = s.inst? id :=
  inst?_modifyBlock s b _ id

@[simp] theorem State.versions_clear (s : State) (b : BlockId) :
    (s.clear b).versions = s.versions :=
  versions_modifyBlock s b _

@[simp] theorem State.deferrals_clear (s : State) (b : BlockId) :
    (s.clear b).deferrals = s.deferrals :=
  deferrals_modifyBlock s b _

theorem WellFormed.clear (h : WellFormed s) (b : BlockId) : WellFormed (s.clear b) := by
  refine h.congr (s.shape_clear b) ⟨s.inst?_clear b, s.versions_clear b, s.timelineOf_clear b,
    s.tableOf_clear b, fun b' e he _ => .inl (by simpa using he), fun e he _ => by simpa using he,
    fun b' p hp => .inl ?_, fun d hd => .inl (by simpa using hd)⟩
  rw [holderOf_clear] at hp
  split at hp
  · cases hp
  · exact hp

theorem Placed.of_clear {u : State} {id : InstId} (h : Placed (s.clear b) u b d id) :
    Placed s u b d id := by
  obtain ⟨⟨i, hi, hi'⟩, hfresh, hlisted, hgraph, hentries, hholder, hversions, hdeferrals⟩ := h
  simp only [inst?_clear] at hi hfresh
  refine ⟨⟨i, hi, hi'⟩, hfresh, hlisted, fun b' => (hgraph b').trans (s.shape_clear b b'),
    fun b' => (hentries b').trans (s.entriesOf_clear b b'), fun b' q hq => ?_,
    hversions.trans (s.versions_clear b), hdeferrals.trans (s.deferrals_clear b)⟩
  obtain ⟨hq, hne⟩ := hholder b' q hq
  rw [holderOf_clear] at hq
  split at hq
  · cases hq
  · exact ⟨hq, hne⟩

theorem State.leadingRun_clear (s : State) (b : BlockId) : (s.clear b).leadingRun
    b = s.leadingRun b := by
  have hlead : (s.clear b).isLead = s.isLead := by
    funext x
    cases x <;> simp [isLead]
  rw [leadingRun_eq_takeWhile, leadingRun_eq_takeWhile, hlead, timelineOf_clear]

/-- A draft that is no phi is placed behind the phis and heads. -/
theorem WellFormed.place (h : WellFormed s) (hb : s.block? b = some blk)
    (hpos : s.leadingRun b ≤ pos) (hd : d.op ≠ .phi) :
    Placed s (s.place b d pos).2 b d (s.place b d pos).1 := by
  have hnew := h.insertNew (d := d) hb hpos fun he => absurd he hd
  unfold State.place
  cases hp : (s.block? b).bind (·.placeholder) with
  | none => exact hnew
  | some p =>
    dsimp only
    split
    · exact hnew
    · rw [← State.clear]
      have hbt : (s.clear b).block? b = some { blk with placeholder := none } := by
        simp [State.clear, hb]
      have hrun : (s.clear b).leadingRun b ≤ pos := s.leadingRun_clear b ▸ hpos
      obtain ⟨i, hi, hblock, hblank⟩ := h.known.holder hp
      have hi' : (s.clear b).inst? p = some i := (s.inst?_clear b p).trans hi
      rw [hi', Option.any_some]
      split
      · rename_i hop
        rw [beq_iff_eq] at hop
        refine Placed.of_clear ((h.clear b).overwrite hbt hrun hd hi' hop hblock (hblank hop) ?_)
        -- no other block has this placeholder, since it belongs to `b`
        intro b' hb'
        rw [holderOf_clear] at hb'
        split at hb'
        · cases hb'
        · rename_i hne
          obtain ⟨j, hj, hjb, -⟩ := h.known.holder hb'
          cases hi.symm.trans hj
          exact hne (hjb.symm.trans hblock)
      · exact Placed.of_clear ((h.clear b).insertNew hbt hrun fun he => absurd he hd)

namespace Placed

variable {t : State} {id : InstId}

/-- Everything that is not empty stays. -/
theorem inst_eq (hp : Placed s t b d id) {id' : InstId} {i : Instruction}
    (hi : s.inst? id' = some i) (hop : i.op ≠ .empty) : t.inst? id' = some i := by
  obtain ⟨j, hj, -⟩ := hp.inst
  rw [hj, if_neg]
  · exact hi
  · rintro rfl
    exact hop (hp.fresh i hi).2.1

theorem outlives (hp : Placed s t b d id) {id' : InstId} {i : Instruction}
    (hi : s.inst? id' = some i) : ∃ i', t.inst? id' = some i' ∧ Outlives i i' := by
  obtain ⟨j, hj, hop, -, -, hblock, -⟩ := hp.inst
  by_cases he : id' = id
  · subst he
    obtain ⟨hb, hempty, hblank, hphi⟩ := hp.fresh i hi
    have hnum : i.op.isNumbered ≠ true := by
      rw [hempty]
      exact Bool.false_ne_true
    exact ⟨j, by rw [hj, if_pos rfl], hblock.trans hb.symm,
      fun h => absurd h hnum, fun h => absurd h hnum,
      fun h => absurd h hnum, fun _ _ h => absurd hempty h, .inr ⟨hempty, hblank, hop ▸ hphi⟩⟩
  · exact ⟨i, by rw [hj, if_neg he, hi], .refl i⟩

theorem advances_of_known (hp : Placed s t b d id) (h : WellFormed s) (hk : Known t) :
    Advances s t :=
  ⟨⟨h.wired.congr hp.graph, hp.listed, h.versioned.mono hp.versions (.congr hp.graph) hp.outlives,
    hk⟩, hp.graph, hp.outlives, fun {_ a} ha => ⟨a, hp.versions ▸ ha, rfl, rfl, rfl, rfl⟩⟩

theorem holder_known (hp : Placed s t b d id) (h : Known s) {b' : BlockId} {p : InstId}
    (hq : t.holderOf b' = some p) :
    ∃ i, t.inst? p = some i ∧ i.block = b' ∧ (i.op = .empty → IsBlank i) := by
  obtain ⟨hq, hne⟩ := hp.holder b' p hq
  obtain ⟨i, hi, hrest⟩ := h.holder hq
  obtain ⟨j, hj, -⟩ := hp.inst
  exact ⟨i, by rw [hj, if_neg hne, hi], hrest⟩

theorem deferral_known (hp : Placed s t b d id) (h : Known s) : ∀ d' ∈ t.deferrals.toList,
    (t.block? d'.target).isSome ∧ ∃ i, t.inst? d'.inst = some i ∧ i.op.isBranch = true := by
  intro d' hd'
  rw [hp.deferrals] at hd'
  obtain ⟨hb, i, hi, hop⟩ := h.deferral d' hd'
  refine ⟨(isSome_of_shape hp.graph _).trans hb, i, hp.inst_eq hi fun he => ?_, hop⟩
  rw [he] at hop
  cases hop

theorem entry_known (hp : Placed s t b d id) (h : Known s) {b' : BlockId} {e : Entry}
    (he : e ∈ s.entriesOf b') (hop : e.op ≠ .phi) : ∃ i, t.inst? e.id = some i ∧ i.block = b' ∧
      i.op = e.op ∧ e.op.isNumbered = true ∧ i.x = e.x ∧ i.y = e.y := by
  obtain ⟨i, hi, hblock, hopi, hnum, hxy⟩ := h.entry he hop
  refine ⟨i, hp.inst_eq hi fun hempty => ?_, hblock, hopi, hnum, hxy⟩
  rw [← hopi, hempty] at hnum
  cases hnum

/-- A draft that is no constant needs no record. -/
theorem advances (hp : Placed s t b d id) (h : WellFormed s) (hd : d.op ≠ .const) :
    Advances s t := by
  obtain ⟨j, hj, hop, -⟩ := hp.inst
  have hold : ∀ {id' i}, t.inst? id' = some i → i.op = .const → s.inst? id' = some i := by
    intro id' i hi hc
    rw [hj] at hi
    split at hi
    · cases hi
      exact absurd (hop.symm.trans hc) hd
    · exact hi
  refine hp.advances_of_known h ⟨fun {b' e} he hne => ?_, fun {id' i} hi hc => ?_,
    fun {id₁ id₂ i₁ i₂} h₁ h₂ hc₁ hc₂ hx => ?_, hp.holder_known h.known, hp.deferral_known h.known⟩
  · rw [hp.entries] at he
    exact hp.entry_known h.known he hne
  · rw [hp.entries]
    exact h.known.const (hold hi hc) hc
  · exact h.known.const_inj (hold h₁ hc₁) (hold h₂ hc₂) hc₁ hc₂ hx

end Placed

theorem State.entriesOf_record (hb : s.block? b = some blk) (e : Entry) (b' : BlockId) :
    (s.record b e).entriesOf b' = if b' = b then e :: s.entriesOf b else s.entriesOf b' := by
  simp only [entriesOf, record, block?_modifyBlock]
  split
  · simp [hb, Block.record]
  · rfl

/-- A numbered draft is recorded. A constant goes to the block of the constants, and is one that was
not there. -/
theorem Placed.advances_record {t : State} {id : InstId} {e : Entry} (hp : Placed s t b d id)
    (h : WellFormed s) (hb : s.block? b = some blk) (hop : e.op = d.op) (hid : e.id = id)
    (hx : e.x = d.x) (hy : e.y = d.y) (hnum : d.op.isNumbered = true)
    (hconst : d.op = .const → b = entryBlock ∧ (∃ n, d.x = .literal n) ∧
      ∀ id' i, s.inst? id' = some i → i.op = .const → i.x ≠ d.x) : Advances s (t.record b e) := by
  obtain ⟨j, hj, hop', hx', hy', hblock, hactive⟩ := hp.inst
  obtain ⟨blk', hb'⟩ := Option.isSome_iff_exists.mp
    ((isSome_of_shape hp.graph b).trans (by rw [hb]; rfl))
  have hentries := entriesOf_record hb' e
  have hinst : ∀ id', (t.record b e).inst? id' = t.inst? id' := inst?_modifyBlock t b _
  have hgraph : ∀ b', ((t.record b e).block? b').map Block.shape = (s.block? b').map Block.shape :=
    fun b' => (map_block?_modifyBlock (f := (·.record e)) Block.shape (fun _ => rfl) b').trans
      (hp.graph b')
  have hversions : (t.record b e).versions = s.versions :=
    (versions_modifyBlock t b _).trans hp.versions
  have houtlives : ∀ {id' i}, s.inst? id' = some i →
      ∃ i', (t.record b e).inst? id' = some i' ∧ Outlives i i' := by
    intro id' i hi
    rw [hinst]
    exact hp.outlives hi
  have hnew : t.inst? id = some j := by rw [hj, if_pos rfl]
  -- a constant of the new state is an old one, or the draft
  have hold : ∀ {id' i}, t.inst? id' = some i → i.op = .const → s.inst? id' = some i ∨
      id' = id ∧ i = j ∧ d.op = .const := by
    intro id' i hi hc
    rw [hj] at hi
    split at hi
    · cases hi
      exact .inr ⟨‹_›, rfl, hop'.symm.trans hc⟩
    · exact .inl hi
  have hlisted : Listed (t.record b e) := by
    refine hp.listed.congr (fun {id' i} hi => ?_) (timelineOf_modifyBlock_of_eq (f := (·.record _))
      fun _ => rfl) (fun y => ?_) (fun y => ?_)
      (hp.listed.tabled.congr (filing_modifyBlock (f := (·.record _)) (fun _ => rfl)
      (fun _ => rfl) b) fun v => by rw [hversions, hp.versions])
    · rw [hinst] at hi
      exact hp.listed.id_eq hi
    · cases y <;> simp only [ownerOf, hinst, hversions, hp.versions]
    · cases y <;> simp only [isLead, hinst, hversions, hp.versions]
  have hknown : Known (t.record b e) := {
    entry := fun {b₁ e₁} he hne => by
      rw [hinst]
      rw [hentries, hp.entries, hp.entries] at he
      split at he
      · rename_i hbb
        subst hbb
        rcases mem_cons.mp he with rfl | he
        · exact ⟨j, hid ▸ hnew, hblock, hop'.trans hop.symm, hop ▸ hnum, hx'.trans hx.symm,
            hy'.trans hy.symm⟩
        · exact hp.entry_known h.known he hne
      · exact hp.entry_known h.known he hne
    const := fun {id' i} hi hc => by
      rw [hinst] at hi
      rw [hentries, hp.entries, hp.entries]
      rcases hold hi hc with hi | ⟨hid', rfl, hdc⟩
      · obtain ⟨hblk, hact, n, hn, e₁, he, hrest⟩ := h.known.const hi hc
        refine ⟨hblk, hact, n, hn, e₁, ?_, hrest⟩
        split
        · rename_i hbb
          exact mem_cons_of_mem _ (hbb ▸ he)
        · exact he
      · obtain ⟨hbb, ⟨n, hn⟩, -⟩ := hconst hdc
        refine ⟨hblock.trans hbb, hactive, n, hx'.trans hn, e, ?_, hop.trans hdc,
          hid.trans hid'.symm, hx.trans hx'.symm⟩
        rw [if_pos hbb.symm]
        exact mem_cons_self ..
    const_inj := fun {id₁ id₂ i₁ i₂} h₁ h₂ hc₁ hc₂ hxx => by
      rw [hinst] at h₁ h₂
      rcases hold h₁ hc₁ with h₁ | ⟨hid₁, rfl, hd₁⟩
      · rcases hold h₂ hc₂ with h₂ | ⟨hid₂, rfl, hd₂⟩
        · exact h.known.const_inj h₁ h₂ hc₁ hc₂ hxx
        · exact absurd (hxx.trans hx') ((hconst hd₂).2.2 _ _ h₁ hc₁)
      · rcases hold h₂ hc₂ with h₂ | ⟨hid₂, rfl, hd₂⟩
        · exact absurd (hxx.symm.trans hx') ((hconst hd₁).2.2 _ _ h₂ hc₂)
        · exact hid₁.trans hid₂.symm
    holder := fun {b₁ p} hq => by
      rw [State.record, holderOf_modifyBlock (f := (·.record _)) fun _ => rfl] at hq
      rw [hinst]
      exact hp.holder_known h.known hq
    deferral := fun d' hd' => by
      rw [State.record, deferrals_modifyBlock] at hd'
      obtain ⟨hsome, hrest⟩ := hp.deferral_known h.known d' hd'
      rw [hinst]
      refine ⟨?_, hrest⟩
      rwa [isSome_of_shape hgraph, ← isSome_of_shape hp.graph] }
  exact ⟨⟨h.wired.congr hgraph, hlisted, h.versioned.mono hversions (.congr hgraph) houtlives,
    hknown⟩, hgraph, houtlives, fun {_ a} ha => ⟨a, hversions ▸ ha, rfl, rfl, rfl, rfl⟩⟩

end Place

end SingleAssignment.Builder
