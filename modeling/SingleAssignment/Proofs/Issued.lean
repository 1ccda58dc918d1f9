import SingleAssignment.Proofs.View

/-!
# Ids that were issued

Values, provenances and versions name instructions by their ids, and an id is issued when an
instruction is made. What is said here keeps ids from being used before that: a version names issued
ids only (`State.AllIssued`), so the instruction that it stands for is older than all that is made
later.
-/

namespace SingleAssignment

open Code

/-- The instructions that a provenance names. -/
def Code.Provenance.ids : Provenance → List InstId
  | absent => []
  | unknown inst => [inst]
  | immediate _ inst => [inst]
  | read _ _ _ inst => [inst]
  | result _ inst x y _ => inst :: (x.ids ++ y.ids)

namespace Builder.State

/-- An id was issued to an instruction, or is the id of none. -/
def Issued (s : State) (id : InstId) : Prop :=
  id ≤ s.insts.size

/-- A value is held by an issued instruction, and its provenance names such only. -/
structure IssuedValue (s : State) (v : Value) : Prop where
  id : s.Issued v.id
  src : ∀ id ∈ v.src.ids, s.Issued id

/-- Every version names issued instructions only. -/
def AllIssued (s : State) : Prop :=
  ∀ (v : VersionId) (ver : Version), s.versions[v]? = some ver → s.IssuedValue ⟨ver.inst, ver.src⟩

variable {s t : State} {id : InstId} {x y : Value}

theorem issued_of_inst? {i : Instruction} (h : s.inst? id = some i) : s.Issued id := by
  unfold inst? at h
  unfold Issued
  split at h
  · have hlt := (Array.getElem?_eq_some_iff.mp h).1
    lia
  · cases h

theorem issued_of_isLive (h : s.isLive id = true) : s.Issued id := by
  cases hi : s.inst? id with
  | none => simp [isLive, hi] at h
  | some i => exact issued_of_inst? hi

/-- An issued id is that of an instruction. -/
theorem Issued.exists_inst? (h : s.Issued id) (hid : 0 < id) : ∃ i, s.inst? id = some i := by
  unfold Issued at h
  unfold inst?
  have hlt : (id - 1).toNat < s.insts.size := by lia
  rw [if_pos hid]
  exact ⟨_, Array.getElem?_eq_getElem hlt⟩

theorem issued_zero (s : State) : s.Issued 0 :=
  Int.natCast_nonneg _

/-- Ids stay issued where instructions stay. -/
theorem Issued.mono (h : s.Issued id)
    (hinst : ∀ {id i}, s.inst? id = some i → ∃ i', t.inst? id = some i') : t.Issued id := by
  by_cases hid : 0 < id
  · obtain ⟨i, hi⟩ := h.exists_inst? hid
    obtain ⟨i', hi'⟩ := hinst hi
    exact issued_of_inst? hi'
  · exact Int.le_trans (Int.not_lt.mp hid) (issued_zero t)

theorem IssuedValue.mono (h : s.IssuedValue x)
    (hinst : ∀ {id i}, s.inst? id = some i → ∃ i', t.inst? id = some i') : t.IssuedValue x :=
  ⟨h.id.mono hinst, fun id hid => (h.src id hid).mono hinst⟩

theorem issuedValue_empty (s : State) : s.IssuedValue {} :=
  ⟨issued_zero s, fun _ hid => by cases hid⟩

/-- The value of an operation names what its operands name, and the instruction that holds it. -/
theorem IssuedValue.result {op : Opcode} {tag : MemoryTag} (hx : s.IssuedValue x)
    (hy : s.IssuedValue y) (hid : s.Issued id) :
    s.IssuedValue ⟨id, .result op id x.src y.src tag⟩ := by
  refine ⟨hid, fun id' hid' => ?_⟩
  rcases List.mem_cons.mp hid' with rfl | hid'
  · exact hid
  · exact (List.mem_append.mp hid').elim (hx.src id') (hy.src id')

theorem AllIssued.readVersion (h : s.AllIssued) (b : BlockId) (name : String) (c : VersionId) :
    s.IssuedValue (s.readVersion b name c) := by
  unfold State.readVersion
  cases hc : s.versions[c]? with
  | none => exact issuedValue_empty s
  | some ver =>
    have hid := (h c ver hc).id
    exact ⟨hid, fun id hmem => List.mem_singleton.mp hmem ▸ hid⟩

theorem AllIssued.mono (h : s.AllIssued) (hversions : t.versions = s.versions)
    (hinst : ∀ {id i}, s.inst? id = some i → ∃ i', t.inst? id = some i') : t.AllIssued :=
  fun v ver hver => (h v ver (hversions ▸ hver)).mono hinst

end Builder.State

end SingleAssignment
