import SingleAssignment.Proofs.Calls

/-!
# Value numbering

What a block knows is recorded apart from the instructions, by operation and operands. In a
well-formed state the records are right, so a value that is found is the value that was asked for
(`WellFormed.exists_of_find?`), and a value that was just made is found
(`WellFormed.find?_placeNumbered`). Sums and products are found with their operands either way round
(`State.find?_swap`). For a builder this says that emitting a numbered operation is sound and
idempotent, whatever calls came before (`emit_sound`).
-/

namespace SingleAssignment.Builder

open Code

section Find

variable {s : State} {b : BlockId} {op : Opcode} {x y : Operand} {tag : MemoryTag}

open State

/-- What a record answers: its operands are the wanted ones, in one order or the other. -/
theorem Entry.of_matches? {e : Entry} {swapped : Bool} (h : e.matches? op x y tag = some swapped) :
    e.op = op ∧ (swapped = false ∧ e.x = x ∧ e.y = y ∨
      swapped = true ∧ op.isCommutative = true ∧ e.x = y ∧ e.y = x) := by
  unfold matches? at h
  split at h
  · cases h
  · rename_i hop
    simp only [Bool.or_eq_true, not_or, decide_eq_true_eq, Decidable.not_not] at hop
    refine ⟨hop.1, ?_⟩
    split at h
    · rename_i hsame
      cases h
      exact .inl ⟨rfl, by simpa using hsame⟩
    · split at h
      · rename_i hswap
        cases h
        simp only [Bool.and_eq_true, decide_eq_true_eq] at hswap
        exact .inr ⟨rfl, hswap.1.1, hswap.1.2, hswap.2⟩
      · cases h

/-- With the wanted operands swapped, the answer is the opposite one. -/
theorem Entry.matches?_swap (e : Entry) (hop : op.isCommutative = true) (hne : x ≠ y) :
    e.matches? op y x tag = (e.matches? op x y tag).map (!·) := by
  unfold matches?
  split
  · rfl
  · by_cases hsame : e.x = x ∧ e.y = y
    · obtain ⟨rfl, rfl⟩ := hsame
      simp [hop, hne]
    · by_cases hswap : e.x = y ∧ e.y = x
      · obtain ⟨rfl, rfl⟩ := hswap
        simp [hop, hne.symm]
      · simp [hop, hsame, hswap]

theorem State.findEntry_swap (later : List Slot) (entries : List Entry)
    (hop : op.isCommutative = true) (hne : x ≠ y) : s.findEntry later op y x tag entries =
      (s.findEntry later op x y tag entries).map fun r => (r.1, !r.2) := by
  unfold findEntry
  rw [List.map_findSome?]
  congr 1
  funext e
  rw [e.matches?_swap hop hne, Function.comp_apply]
  split
  · cases e.matches? op x y tag <;> rfl
  · rfl

theorem State.find?_swap (limit : Nat) (hop : op.isCommutative = true) (hne : x ≠ y) :
    s.find? b op y x tag limit = (s.find? b op x y tag limit).map fun r => (r.1, !r.2) := by
  unfold find?
  split
  · rfl
  · rename_i d ds _
    simp only [findEntry_swap _ _ hop hne]
    cases s.findEntry ((s.timelineOf d).drop limit) op x y tag (s.entriesOf d) with
    | some r => rfl
    | none =>
      rw [Option.map_none, Option.none_or, Option.none_or, List.map_findSome?]
      rfl

theorem State.exists_of_findEntry {later : List Slot} {entries : List Entry} {id : InstId}
    {swapped : Bool} (h : s.findEntry later op x y tag entries = some (id, swapped)) :
    ∃ e ∈ entries, e.id = id ∧ s.isLive id = true ∧ e.matches? op x y tag = some swapped := by
  obtain ⟨e, he, hfound⟩ := List.exists_of_findSome?_eq_some h
  split at hfound
  · rename_i hlive
    obtain ⟨swapped', hm, heq⟩ := Option.map_eq_some_iff.mp hfound
    cases heq
    exact ⟨e, he, rfl, (Bool.and_eq_true_iff.mp hlive).1, hm⟩
  · cases hfound

/-- A value is found in the records of a dominator. -/
theorem State.exists_of_find? {limit : Nat} {id : InstId} {swapped : Bool}
    (h : s.find? b op x y tag limit = some (id, swapped)) : ∃ d ∈ s.dominatorsOf b,
    ∃ e ∈ s.entriesOf d, e.id = id ∧ s.isLive id = true ∧ e.matches? op x y tag = some swapped := by
  unfold find? at h
  split at h
  · cases h
  · rename_i d ds hds
    rw [hds]
    rcases Option.or_eq_some_iff.mp h with hfound | ⟨-, hfound⟩
    · exact ⟨d, List.mem_cons_self .., exists_of_findEntry hfound⟩
    · obtain ⟨d', hd', hfound⟩ := List.exists_of_findSome?_eq_some hfound
      exact ⟨d', List.mem_cons_of_mem _ hd', exists_of_findEntry hfound⟩

/-- The instruction that holds a value in a block: an active one of a dominator, with the operation
and the operands, which may be swapped. -/
def IsValueAt (s : State) (b : BlockId) (op : Opcode) (x y : Operand) (id : InstId)
    (swapped : Bool) : Prop :=
  ∃ i, s.inst? id = some i ∧ i.active = true ∧ i.op = op ∧ i.block ∈ s.dominatorsOf b ∧
    (swapped = false ∧ i.x = x ∧ i.y = y ∨
      swapped = true ∧ op.isCommutative = true ∧ i.x = y ∧ i.y = x)

theorem WellFormed.isValueAt_of_find? (h : WellFormed s) (hnum : op.isNumbered = true) {limit : Nat}
    {id : InstId} {swapped : Bool} (hfind : s.find? b op x y tag limit = some (id, swapped)) :
    IsValueAt s b op x y id swapped := by
  obtain ⟨d, hd, e, he, rfl, hlive, hm⟩ := exists_of_find? hfind
  obtain ⟨rfl, hoperands⟩ := Entry.of_matches? hm
  obtain ⟨i, hi, rfl, hop, -, hx, hy⟩ := h.known.entry he fun hphi => by
    rw [hphi] at hnum
    cases hnum
  rw [← hx, ← hy] at hoperands
  rw [isLive, hi] at hlive
  exact ⟨i, hi, hlive, hop, hd, hoperands⟩

/-- A value that was just put into a block, at its end, and recorded. -/
theorem WellFormed.placeNumbered_spec (h : WellFormed s) (hb : (s.block? b).isSome) {d : Draft}
    (tag : MemoryTag) {pos : Nat} (hnum : d.op.isNumbered = true) (hpos : s.leadingRun b ≤ pos) :
    (∃ i, (s.placeNumbered b d tag pos).2.inst? (s.placeNumbered b d tag pos).1 = some i ∧
      i.active = true ∧ i.op = d.op ∧ i.block = b ∧ i.x = d.x ∧ i.y = d.y) ∧
    ∃ es, (s.placeNumbered b d tag pos).2.entriesOf b =
      { op := d.op, id := (s.placeNumbered b d tag pos).1, x := d.x, y := d.y, tag := tag } ::
      es := by
  obtain ⟨blk, hb⟩ := Option.isSome_iff_exists.mp hb
  have hphi : d.op ≠ .phi := by
    intro he
    rw [he] at hnum
    cases hnum
  have hp := h.place (d := d) hb hpos hphi
  unfold State.placeNumbered
  generalize s.place b d pos = r at hp
  obtain ⟨id, t⟩ := r
  dsimp only at hp ⊢
  obtain ⟨i, hi, hop, hx, hy, hblock, hactive⟩ := hp.inst
  obtain ⟨blk', hb', -⟩ := exists_shape (fun b => (hp.graph b).symm) hb
  have hinst : ∀ e, (t.record b e).inst? id = some i := fun e =>
    (inst?_modifyBlock ..).trans ((hi id).trans (if_pos rfl))
  have hentries : ∀ e, (t.record b e).entriesOf b = e :: t.entriesOf b := fun e => by
    rw [entriesOf_record hb', if_pos rfl]
  split
  · refine ⟨⟨{ i with memory := some tag }, ?_, hactive, hop, hblock, hx, hy⟩, t.entriesOf b, ?_⟩
    · rw [inst?_modifyInst, if_pos rfl, hinst]
      rfl
    · rw [entriesOf_modifyInst, hentries]
  · exact ⟨⟨i, hinst _, hactive, hop, hblock, hx, hy⟩, t.entriesOf b, hentries _⟩

theorem Wired.dominatorsOf (h : Wired s) (hb : (s.block? b).isSome) : ∃ ds, s.dominatorsOf b = b ::
    ds := by
  obtain ⟨blk, hb⟩ := Option.isSome_iff_exists.mp hb
  obtain ⟨ds, hds⟩ := h.doms hb
  exact ⟨ds, by rw [State.dominatorsOf, hb, Option.map_some, Option.getD_some, hds]⟩

/-- What a block recorded last is found first. -/
theorem Wired.find?_of_head (h : Wired s) (hb : (s.block? b).isSome) {e : Entry} {es : List Entry}
    (hentries : s.entriesOf b = e :: es) (hlive : s.isLive e.id = true) :
    s.find? b e.op e.x e.y e.tag (s.endOf b) = some (e.id, false) := by
  obtain ⟨ds, hds⟩ := h.dominatorsOf hb
  have hdrop : (s.timelineOf b).drop (s.endOf b) = [] := List.drop_length ..
  have hm : e.matches? e.op e.x e.y e.tag = some false := by simp [Entry.matches?]
  unfold find?
  rw [hds]
  dsimp only
  rw [hdrop, hentries, findEntry, List.findSome?_cons]
  simp [hlive, hm]

end Find

section Emit

variable {s : State} {b : BlockId} {op : Opcode}

open State

/-- A numbered operation in a block is numbered at its end. -/
theorem emit_eq (hb : (s.block? b).isSome) (hnum : op.isNumbered = true) (hconst : op ≠ .const)
    (x y : Value) :
    emit b op x y s = .ok (s.number b op x y {} (s.endOf b)).1
      (s.number b op x y {} (s.endOf b)).2 := by
  obtain ⟨blk, hb⟩ := Option.isSome_iff_exists.mp hb
  have hends : Ends (emit b op x y) s (fun _ _ => False) fun r t =>
      r = (s.number b op x y {} (s.endOf b)).1 ∧ t = (s.number b op x y {} (s.endOf b)).2 := by
    refine .bind (.bind (.get ?_))
    rw [hb]
    refine .pure ?_
    cases op with
    | const => exact absurd rfl hconst
    | add | sub | mul | div | cmp | adda | load => exact ends_step ⟨rfl, rfl⟩
    | _ => cases hnum
  obtain ⟨r, t, hemit, rfl, rfl⟩ := hends.exists_ok
  exact hemit

theorem number_of_find? {x y : Value} {tag : MemoryTag} {limit : Nat} {id : InstId} {swapped : Bool}
    (h : s.find? b op x.operand y.operand tag limit = some (id, swapped)) :
    s.number b op x y tag limit = ((⟨id, .result op id x.src y.src tag⟩, swapped), s) := by
  rw [State.number, h]

/-- A numbered operation yields an instruction that holds the value, and finds it if it is emitted
again. -/
theorem WellFormed.number_spec (h : WellFormed s) (hb : (s.block? b).isSome)
    (hnum : op.isNumbered = true) (hconst : op ≠ .const) (x y : Value) : ∃ id swapped t,
      s.number b op x y {} (s.endOf b) = ((⟨id, .result op id x.src y.src {}⟩, swapped), t) ∧
      Advances s t ∧ IsValueAt t b op x.operand y.operand id swapped ∧
      t.find? b op x.operand y.operand {} (t.endOf b) = some (id, swapped) := by
  have hadv := h.number hb x y {} hnum hconst (Listed.leadingRun_le_endOf b)
  cases hfind : s.find? b op x.operand y.operand {} (s.endOf b) with
  | some found =>
    obtain ⟨id, swapped⟩ := found
    exact ⟨id, swapped, s, number_of_find? hfind, .refl h, h.isValueAt_of_find? hnum hfind, hfind⟩
  | none =>
    obtain ⟨⟨i, hi, hactive, hop, hblock, hx, hy⟩, es, hentries⟩ := h.placeNumbered_spec hb
      (d := { op := op, x := x.operand, y := y.operand, srcX := x.src, srcY := y.src }) {} hnum
      (Listed.leadingRun_le_endOf b)
    rw [State.number, hfind] at hadv ⊢
    dsimp only at hadv hentries hi hop hx hy ⊢
    generalize s.placeNumbered b _ {} (s.endOf b) = r at *
    obtain ⟨id, t⟩ := r
    have hbt := hadv.isSome_block hb
    obtain ⟨ds, hds⟩ := hadv.wellFormed.wired.dominatorsOf hbt
    refine ⟨id, false, t, rfl, hadv, ⟨i, hi, hactive, hop, ?_, .inl ⟨rfl, hx, hy⟩⟩, ?_⟩
    · rw [hds, hblock]
      exact List.mem_cons_self ..
    · refine hadv.wellFormed.wired.find?_of_head hbt hentries ?_
      rw [isLive, hi]
      exact hactive

/-- Whatever calls came before, a numbered operation in a block yields an active instruction of a
dominator of the block, with the operation and the operands or, if that does not matter, with the
operands swapped. Emitted again, it yields the same and changes nothing; a sum or product is found
with its operands the other way round, and says so. -/
theorem emit_sound (settings : Settings) (calls : List Call) (b : BlockId)
    (op : Opcode) (x y : Value) (hb : ((State.after settings calls).block? b).isSome)
    (hnum : op.isNumbered = true) (hconst : op ≠ .const) : ∃ v swapped t,
    emit b op x y (State.after settings calls) = .ok (v, swapped) t ∧ IsValueAt t b op x.operand
      y.operand v.id swapped ∧ emit b op x y t = .ok (v, swapped) t ∧
      (op = .add ∨ op = .mul → x.operand ≠ y.operand →
        ∃ w, emit b op y x t = .ok (w, !swapped) t ∧ w.id = v.id) := by
  obtain ⟨id, swapped, t, hnumber, hadv, hvalue, hfind⟩ :=
    (wellFormed_after settings calls).number_spec hb hnum hconst x y
  have hbt := hadv.isSome_block hb
  refine ⟨⟨id, .result op id x.src y.src {}⟩, swapped, t, ?_, hvalue, ?_, fun hop hne => ?_⟩
  · rw [emit_eq hb hnum hconst, hnumber]
  · rw [emit_eq hbt hnum hconst, number_of_find? hfind]
  · have hswap : t.find? b op y.operand x.operand {} (t.endOf b) = some (id, !swapped) := by
      rw [find?_swap _ (by rcases hop with rfl | rfl <;> rfl) hne, hfind]
      rfl
    exact ⟨⟨id, .result op id y.src x.src {}⟩,
      by rw [emit_eq hbt hnum hconst, number_of_find? hswap], rfl⟩

/-- A sum that is found the other way round. -/
theorem emit_sound_swapped : ∃ v swapped t,
    emit startBlock .add ⟨1, .absent⟩ ⟨2, .absent⟩
      (State.after {} [.const 5, .const 7, .emit startBlock .add ⟨2, .absent⟩ ⟨1, .absent⟩]) =
        .ok (v, swapped) t ∧
      IsValueAt t startBlock .add (.inst 1) (.inst 2) v.id swapped ∧
      emit startBlock .add ⟨1, .absent⟩ ⟨2, .absent⟩ t = .ok (v, swapped) t ∧
      (Opcode.add = .add ∨ Opcode.add = .mul → Operand.inst 1 ≠ Operand.inst 2 →
        ∃ w, emit startBlock .add ⟨2, .absent⟩ ⟨1, .absent⟩ t = .ok (w, !swapped) t ∧
          w.id = v.id) :=
  emit_sound {} [.const 5, .const 7, .emit startBlock .add ⟨2, .absent⟩ ⟨1, .absent⟩]
    startBlock .add ⟨1, .absent⟩ ⟨2, .absent⟩ (by decide +kernel) rfl (by decide)

end Emit

end SingleAssignment.Builder
