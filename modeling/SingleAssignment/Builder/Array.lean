import SingleAssignment.Builder.Value

/-!
# Arrays

Arrays follow each other in memory from the base address on. The address of an element is the base
of its array plus the word size times the sum of the indices, each times the stride of its
dimension. All of it is arithmetic on words of 64 bits.

A load is numbered like any other value, but it matches only a load of the same array with no store
in between. A store therefore starts a new epoch of the array, and the loads of it that the blocks
behind the store know are forgotten.
-/

namespace SingleAssignment.Builder

open Code

/-- The stride of each dimension: the number of elements that one step of its index passes. -/
def stridesOf : List Int64 → List Int64
  | [] => []
  | _ :: dims => dims.foldr (· * ·) 1 :: stridesOf dims

namespace State

/-- The constants of a list of numbers. -/
def consts (s : State) : List Int64 → List Value × State
  | [] => ([], s)
  | n :: ns =>
    let (v, s) := s.const n
    let (vs, s) := s.consts ns
    (v :: vs, s)

/-- Reserves memory for an array. -/
def addArray (s : State) (name : String) (dims : List Int64) : ArrayInfo × State :=
  let strides := stridesOf dims
  let base := s.nextAddress
  let size := dims.foldl (· * ·) 1
  let s := { s with nextAddress := base + size * s.settings.wordSize }
  let (baseValue, s) := s.const base
  let (strideValues, s) := s.consts strides
  let a : ArrayInfo :=
    { name := name, dims := dims, strides := strides, base := base, baseValue := baseValue,
      strideValues := strideValues }
  (a, { s with arrays := s.arrays ++ [a] })

/-- An index times the stride of its dimension. -/
def scaleIndex (s : State) (b : BlockId) (index : Value) (stride : Int64) (strideValue : Value) :
    Value × State :=
  if stride = 1 then (index, s) else s.numberAtEnd b .mul index strideValue {}

/-- Adds to an offset the indices of the remaining dimensions, each times its stride. -/
def addIndices (s : State) (b : BlockId) (offset : Value) :
    List (Value × Int64 × Value) → Value × State
  | [] => (offset, s)
  | (index, stride, strideValue) :: rest =>
    let (term, s) := s.scaleIndex b index stride strideValue
    let (offset, s) := s.numberAtEnd b .add offset term {}
    s.addIndices b offset rest

/-- The number of elements before the one with the given indices. -/
def elementOffset (s : State) (b : BlockId) : List (Value × Int64 × Value) → Value × State
  | [] => ({}, s)
  | (index, stride, strideValue) :: rest =>
    let (offset, s) := s.scaleIndex b index stride strideValue
    s.addIndices b offset rest

/-- The address of an element. -/
def elementAddress (s : State) (b : BlockId) (a : ArrayInfo) (indices : List Value) :
    Value × State :=
  let (offset, s) := s.elementOffset b (indices.zip (a.strides.zip a.strideValues))
  let (word, s) := s.const s.settings.wordSize
  let (scaled, s) := s.numberAtEnd b .mul offset word {}
  s.numberAtEnd b .adda a.baseValue scaled {}

/-- The loads of an array are forgotten in a block and in every block it dominates. -/
def forgetLoads (s : State) (b : BlockId) (name : String) : State :=
  { s with blocks := s.blocks.map fun blk =>
      if blk.dominators.contains b then
        { blk with entries := blk.entries.filter fun e => e.op != .load || e.tag.array != name }
      else blk }

/-- The memory of an array may have changed. -/
def bumpEpoch (s : State) (name : String) : State :=
  { s with arrays := s.arrays.map fun a =>
      if a.name == name then { a with epoch := a.epoch + 1 } else a }

/-- Writes a value at an address of an array: the store ends an epoch of the array. -/
def storeAt (s : State) (b : BlockId) (name : String) (epoch : Int) (v addr : Value) : State :=
  let (store, s) := s.emitEffect b .store v addr
  let s := s.modifyInst store.id fun i => { i with memory := some ⟨name, epoch⟩ }
  (s.bumpEpoch name).forgetLoads b name

end State

/-- Declares an array. -/
def declareArray (name : String) (dims : List Int64) : Build ArrayInfo := do
  if dims.isEmpty then throw (.arrayWithoutDimensions name)
  match dims.find? (· ≤ 0) with
  | some d => throw (.arrayDimension name d)
  | none =>
    if ((← get).array? name).isSome then throw (.arrayDeclared name)
    Build.step (·.addArray name dims)

/-- The array with a name. -/
def array (name : String) : Build ArrayInfo := do
  match (← get).array? name with
  | some a => return a
  | none => throw (.noArray name)

/-- The array that is accessed in a block. -/
def accessedArray (b : BlockId) (name : String) : Build ArrayInfo := do
  if b = entryBlock then throw (.entryBlock .element name)
  let _ ← Build.block b
  array name

/-- The address of an element, which takes one index for each dimension. -/
def address (b : BlockId) (a : ArrayInfo) (indices : List Value) : Build Value := do
  if indices.length ≠ a.dims.length then
    throw (.indexCount a.name a.dims.length indices.length)
  Build.step (·.elementAddress b a indices)

/-- Reads an element of an array in a block. -/
def loadElement (b : BlockId) (name : String) (indices : List Value) : Build Value := do
  let a ← accessedArray b name
  let addr ← address b a indices
  Build.step fun s => s.numberAtEnd b .load addr {} { array := name, epoch := a.epoch }

/-- Writes an element of an array in a block. -/
def storeElement (b : BlockId) (name : String) (indices : List Value) (v : Value) :
    Build Unit := do
  let a ← accessedArray b name
  let _ ← Build.instruction v.id
  let addr ← address b a indices
  modify (·.storeAt b name a.epoch v addr)

end SingleAssignment.Builder
