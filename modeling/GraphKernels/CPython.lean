import Mathlib

set_option autoImplicit false

/- The CPython side of the Python binding's `__getitem__`: the `slice` object, what
`slice.indices(len)` computes (`PySlice_GetIndicesEx`, that is `PySlice_Unpack` then
`PySlice_AdjustIndices`), and `list.__getitem__` (`list_subscript`), the behaviour a
sequence type is compared with. `Py_ssize_t` is 64 bits wide; integers are `Int`. A key is
an `int` (a `bool` is one), a `slice`, or an object of another type, of which only the type
name is read; slice fields are `int` or `None`: objects with only an `__index__` method are
not modelled. -/
namespace GraphKernels.CPython

/-- `PY_SSIZE_T_MAX` on a 64-bit build, also `isize::MAX`. -/
def PY_SSIZE_T_MAX : Int := 2 ^ 63 - 1

/-- `PY_SSIZE_T_MIN`, also `isize::MIN`. -/
def PY_SSIZE_T_MIN : Int := -2 ^ 63

/-- The exception classes raised on these paths; `panicException` is what pyo3 raises when
the Rust side panics. -/
inductive ExcType where
  | indexError
  | typeError
  | valueError
  | panicException
  deriving DecidableEq, Repr

structure PyErr where
  kind : ExcType
  msg : String
  deriving DecidableEq, Repr

inductive PyObject (α : Type) where
  | float (x : α)
  | list (xs : List α)
  deriving DecidableEq, Repr

structure Slice where
  start : Option Int
  stop : Option Int
  step : Option Int
  deriving DecidableEq, Repr

inductive Key where
  | int (value : Int)
  | slice (slice : Slice)
  | other (typeName : String)
  deriving DecidableEq, Repr

/-- `type(key).__name__`. -/
def Key.typeName : Key → String
  | .int _ => "int"
  | .slice _ => "slice"
  | .other name => name

/-! ## `slice.indices` -/

/-- `_PyEval_SliceIndex` on an `int`: `PyNumber_AsSsize_t(v, NULL)` clamps to `Py_ssize_t`. -/
def sliceIndex (v : Int) : Int := max PY_SSIZE_T_MIN (min v PY_SSIZE_T_MAX)

/-- `PySlice_Unpack`: the step first, then `start` and `stop`, whose `None` defaults depend on
the sign of the step. -/
def sliceUnpack (r : Slice) : Except PyErr (Int × Int × Int) := do
  let step ← match r.step with
    | none => pure 1
    | some v =>
      let step := sliceIndex v
      if step = 0 then throw ⟨.valueError, "slice step cannot be zero"⟩
      -- guards the `step = -step` of a later reversal
      else pure (max step (-PY_SSIZE_T_MAX))
  let start := match r.start with
    | none => if step < 0 then PY_SSIZE_T_MAX else 0
    | some v => sliceIndex v
  let stop := match r.stop with
    | none => if step < 0 then PY_SSIZE_T_MIN else PY_SSIZE_T_MAX
    | some v => sliceIndex v
  pure (start, stop, step)

/-- How `PySlice_AdjustIndices` adjusts `start` and, alike, `stop`: a negative index counts
from the end, and what is still outside is clamped to `[-1, length - 1]` for a negative step,
to `[0, length]` otherwise. -/
def adjustIndex (length step index : Int) : Int :=
  if index < 0 then
    if index + length < 0 then (if step < 0 then -1 else 0) else index + length
  else if length ≤ index then (if step < 0 then length - 1 else length)
  else index

/-- `PySlice_AdjustIndices`: the adjusted `start` and `stop`, and the slice length. -/
def adjustIndices (length start stop step : Int) : Int × Int × Int :=
  let start := adjustIndex length step start
  let stop := adjustIndex length step stop
  (start, stop,
    if step < 0 then (if stop < start then (start - stop - 1) / (-step) + 1 else 0)
    else if start < stop then (stop - start - 1) / step + 1 else 0)

/-- `PySlice_GetIndicesEx`, which pyo3's `PySlice::indices` calls:
`(start, stop, step, slicelength)`. -/
def getIndicesEx (slice : Slice) (length : Int) : Except PyErr (Int × Int × Int × Int) := do
  let (start, stop, step) ← sliceUnpack slice
  let (start, stop, slicelength) := adjustIndices length start stop step
  pure (start, stop, step, slicelength)

theorem sliceUnpack_step {r : Slice} {start stop step : Int}
    (ok : sliceUnpack r = .ok (start, stop, step)) : step ≠ 0 := by
  unfold sliceUnpack at ok
  rcases r with ⟨_, _, _ | v⟩
  · cases ok
    decide
  · by_cases zero : sliceIndex v = 0
    · simp only [zero, if_true] at ok
      cases ok
    · simp only [zero, if_false] at ok
      cases ok
      simp only [PY_SSIZE_T_MAX] at zero ⊢
      omega

theorem adjustIndex_pos {length step : Int} (nonneg : 0 ≤ length) (positive : 0 < step)
    (index : Int) : 0 ≤ adjustIndex length step index ∧ adjustIndex length step index ≤ length := by
  unfold adjustIndex
  split_ifs <;> omega

theorem adjustIndex_neg {length step : Int} (nonneg : 0 ≤ length) (negative : step < 0)
    (index : Int) :
    -1 ≤ adjustIndex length step index ∧ adjustIndex length step index ≤ length - 1 := by
  unfold adjustIndex
  split_ifs <;> omega

theorem getIndicesEx_ok {slice : Slice} {length start stop step slicelength : Int}
    (nonneg : 0 ≤ length)
    (ok : getIndicesEx slice length = .ok (start, stop, step, slicelength)) :
    (0 < step ∧ 0 ≤ start ∧ start ≤ length ∧ 0 ≤ stop ∧ stop ≤ length ∧
        slicelength = if start < stop then (stop - start - 1) / step + 1 else 0) ∨
      (step < 0 ∧ -1 ≤ start ∧ start ≤ length - 1 ∧ -1 ≤ stop ∧ stop ≤ length - 1 ∧
        slicelength = if stop < start then (start - stop - 1) / (-step) + 1 else 0) := by
  unfold getIndicesEx at ok
  match unpack : sliceUnpack slice with
  | .error _ => simp only [unpack] at ok; cases ok
  | .ok (start₀, stop₀, step₀) =>
    simp only [unpack, adjustIndices] at ok
    cases ok
    rcases lt_or_gt_of_ne (sliceUnpack_step unpack) with negative | positive
    · have bounds := adjustIndex_neg nonneg negative
      exact .inr ⟨negative, (bounds _).1, (bounds _).2, (bounds _).1, (bounds _).2, if_pos negative⟩
    · have bounds := adjustIndex_pos nonneg positive
      exact .inl ⟨positive, (bounds _).1, (bounds _).2, (bounds _).1, (bounds _).2,
        if_neg (not_lt.mpr positive.le)⟩

/-! ## `list.__getitem__` -/

section List

variable {α : Type} [Inhabited α]

/-- `PyNumber_AsSsize_t(item, PyExc_IndexError)`. -/
def asSsize (v : Int) : Except PyErr Int :=
  if PY_SSIZE_T_MIN ≤ v ∧ v ≤ PY_SSIZE_T_MAX then pure v
  else throw ⟨.indexError, "cannot fit \x27int\x27 into an index-sized integer"⟩

/-- `list_item`. -/
def listItem (a : List α) (i : Int) : Except PyErr (PyObject α) :=
  if 0 ≤ i ∧ i < a.length then pure (.float (a.getD i.toNat default))
  else throw ⟨.indexError, "list index out of range"⟩

/-- `list_slice(a, ilow, ihigh)`, called with `0 ≤ ilow < ihigh ≤ len(a)`. -/
def listSlice (a : List α) (ilow ihigh : Int) : List α :=
  (a.drop ilow.toNat).take (ihigh - ilow).toNat

/-- The copy loop of `list_subscript`: `slicelength` items of `src` from `cur` on, moving by
`step` (`cur` is a `size_t` there, and wraps back to the same index). -/
def pick (src : List α) (step : Int) : Int → Nat → List α
  | _, 0 => []
  | cur, n + 1 => src.getD cur.toNat default :: pick src step (cur + step) n

/-- `list_subscript`, the `__getitem__` of `list`. -/
def listSubscript (self : List α) (item : Key) : Except PyErr (PyObject α) :=
  match item with
  | .int v => do
    let i ← asSsize v
    listItem self (if i < 0 then i + self.length else i)
  | .slice r => do
    let (start, stop, step) ← sliceUnpack r
    let (start, stop, slicelength) := adjustIndices self.length start stop step
    if slicelength ≤ 0 then pure (.list [])
    else if step = 1 then pure (.list (listSlice self start stop))
    else pure (.list (pick self step start slicelength.toNat))
  | .other name => throw ⟨.typeError, "list indices must be integers or slices, not " ++ name⟩

theorem pick_getElem? (src : List α) (step cur : Int) (n i : Nat) :
    (pick src step cur n)[i]? =
      if i < n then some (src.getD (cur + i * step).toNat default) else none := by
  induction n generalizing cur i with
  | zero => simp [pick]
  | succ n ih =>
    cases i with
    | zero => simp [pick]
    | succ i =>
      rw [pick, List.getElem?_cons_succ, ih, show cur + step + i * step = cur + ↑(i + 1) * step by
        push_cast; ring]
      simp only [Nat.succ_lt_succ_iff]

theorem getElem?_eq_some_getD {xs : List α} {i : Nat} (lt : i < xs.length) :
    xs[i]? = some (xs.getD i default) := by
  rw [List.getD_eq_getElem?_getD, List.getElem?_eq_getElem lt]
  rfl

theorem lt_slicelength {d step : Int} (positive : 0 < step) (i : Nat) :
    i < ((d - 1) / step + 1).toNat ↔ i * step < d := by
  rw [Int.lt_toNat, Int.lt_add_one_iff, Int.le_ediv_iff_mul_le positive]
  omega

theorem listSlice_eq_pick (a : List α) {ilow ihigh : Int} (nonneg : 0 ≤ ilow)
    (le : ihigh ≤ a.length) : listSlice a ilow ihigh = pick a 1 ilow (ihigh - ilow).toNat := by
  refine List.ext_getElem? fun i => ?_
  rw [listSlice, List.getElem?_take, List.getElem?_drop, pick_getElem?]
  split_ifs with lt
  · rw [getElem?_eq_some_getD (by omega)]
    congr 2
    omega
  · rfl

theorem listSubscript_slice (a : List α) (r : Slice) :
    listSubscript a (.slice r) =
      (getIndicesEx r a.length).map fun (start, _, step, slicelength) =>
        .list (pick a step start slicelength.toNat) := by
  have unfolded : listSubscript a (.slice r) = (getIndicesEx r a.length).bind
      fun (start, stop, step, slicelength) =>
        if slicelength ≤ 0 then pure (.list []) else if step = 1 then pure (.list (listSlice a start stop))
        else pure (.list (pick a step start slicelength.toNat)) := by
    simp only [listSubscript, getIndicesEx]
    cases sliceUnpack r <;> rfl
  rw [unfolded]
  match ok : getIndicesEx r a.length with
  | .error _ => rfl
  | .ok (start, stop, step, n) =>
    simp only [Except.bind, Except.map]
    split_ifs with empty one
    · rw [Int.toNat_eq_zero.mpr empty]
      rfl
    · subst one
      rcases getIndicesEx_ok (Int.natCast_nonneg _) ok with ⟨-, nonneg, -, -, le, rfl⟩ | ⟨negative, -⟩
      · have lt : start < stop := by
          by_contra ge
          simp only [ge, if_false, le_refl, not_true_eq_false] at empty
        rw [listSlice_eq_pick a nonneg le, if_pos lt, Int.ediv_one, sub_add_cancel]
        rfl
      · omega
    · rfl

end List

end GraphKernels.CPython
