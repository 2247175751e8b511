import GraphKernels.CPython

set_option autoImplicit false

/- The Python class `PageRankResult` of the binding crate (`pr.rs`): `check_bounds`,
`get_idx`, `get_slice`, `__getitem__`, `score`, `__len__`, `__length_hint__` and
`__contains__`, and the `page_rank_config` that reads its config dict. Only `scores` is read
by these; `ran_iterations`, `error` and `page_rank_micros` are plain getters and left out.
The `f32` scores are any type `α`. The Rust operations that may panic (`xs[i]`, `xs[a..b]`)
return a `PanicException`, so that the model shows they never do. -/
namespace GraphKernels.Binding

open CPython

variable {α : Type}

/-! ## Rust slices and iterators -/

/-- `xs[i]` on a Rust slice: panics past the end. -/
def indexAt (xs : List α) (i : Nat) : Except PyErr α :=
  match xs[i]? with
  | some x => pure x
  | none =>
    let len := xs.length
    throw ⟨.panicException, s!"index out of bounds: the len is {len} but the index is {i}"⟩

/-- `xs[start..end]` on a Rust slice: panics unless `start ≤ end ≤ len`. -/
def indexRange (xs : List α) (start stop : Nat) : Except PyErr (List α) :=
  let len := xs.length
  if stop < start then
    throw ⟨.panicException, s!"slice index starts at {start} but ends at {stop}"⟩
  else if len < stop then
    throw ⟨.panicException, s!"range end index {stop} out of range for slice of length {len}"⟩
  else pure ((xs.take stop).drop start)

/-- `Iterator::step_by(step)` from a point where `skip` items are still to be passed over:
`StepBy::next` takes the first item, then `nth(step - 1)`. -/
def stepByFrom (step : Nat) : Nat → List α → List α
  | _, [] => []
  | 0, x :: xs => x :: stepByFrom step (step - 1) xs
  | skip + 1, _ :: xs => stepByFrom step skip xs

@[simp] theorem stepByFrom_nil (step skip : Nat) : stepByFrom step skip ([] : List α) = [] := by
  cases skip <;> rfl

/-- `Iterator::step_by(step)`. -/
def stepBy (step : Nat) (xs : List α) : List α := stepByFrom step 0 xs

theorem indexRange_ok (xs : List α) {start stop : Nat} (le : start ≤ stop)
    (within : stop ≤ xs.length) : indexRange xs start stop = .ok ((xs.take stop).drop start) := by
  simp only [indexRange, if_neg (Nat.not_lt.mpr le), if_neg (Nat.not_lt.mpr within)]
  rfl

theorem stepByFrom_getElem? {step : Nat} (positive : 0 < step) (skip : Nat) (xs : List α)
    (i : Nat) : (stepByFrom step skip xs)[i]? = xs[skip + i * step]? := by
  induction xs generalizing skip i with
  | nil => simp [stepByFrom]
  | cons x xs ih =>
    cases skip with
    | zero =>
      cases i with
      | zero => simp [stepByFrom]
      | succ i =>
        rw [stepByFrom, List.getElem?_cons_succ, ih, show 0 + (i + 1) * step = step - 1 + i * step + 1
          by rw [Nat.succ_mul]; omega, List.getElem?_cons_succ]
    | succ skip =>
      rw [stepByFrom, ih, show skip + 1 + i * step = skip + i * step + 1 by omega,
        List.getElem?_cons_succ]

theorem stepBy_getElem? {step : Nat} (positive : 0 < step) (xs : List α) (i : Nat) :
    (stepBy step xs)[i]? = xs[i * step]? := by
  rw [stepBy, stepByFrom_getElem? positive, Nat.zero_add]

theorem stepBy_one (xs : List α) : stepBy 1 xs = xs :=
  List.ext_getElem? fun i => by rw [stepBy_getElem? Nat.one_pos, Nat.mul_one]

/-! ## `check_bounds` -/

inductive IntRange where
  | exclusive (lo hi : Int)
  | inclusive (lo hi : Int)

def IntRange.contains : IntRange → Int → Bool
  | .exclusive lo hi, i => lo ≤ i && i < hi
  | .inclusive lo hi, i => lo ≤ i && i ≤ hi

def outOfRangeMessage (originalIndex len : Int) : String :=
  s!"Index \x27{originalIndex}\x27 is out of range for this sequence of length \x27{len}\x27"

/-- `check_bounds(range, index, original_index, len)`. -/
def checkBounds (range : IntRange) (index originalIndex len : Int) : Except PyErr Unit :=
  if range.contains index then pure ()
  else throw ⟨.indexError, outOfRangeMessage originalIndex len⟩

/-! ## `PageRankResult` -/

/-- `PageRankResult` as its indexing methods read it. -/
structure PageRankResult (α : Type) where
  scores : List α

def invalidTypeMessage (tpe : String) : String :=
  s!"Invalid type for index key \x27{tpe}\x27, only int and slice is allowed"

/-- pyo3's `key.extract::<isize>()`: an `int` within `isize`. -/
def extractIsize : Key → Option Int
  | .int v => if PY_SSIZE_T_MIN ≤ v ∧ v ≤ PY_SSIZE_T_MAX then some v else none
  | _ => none

namespace PageRankResult

/-- `get_idx`. -/
def getIdx (self : PageRankResult α) (idx : Int) : Except PyErr (PyObject α) := do
  let len : Int := self.scores.length
  let index := if idx < 0 then len + idx else idx
  checkBounds (.exclusive 0 len) index idx len
  let score ← indexAt self.scores index.toNat
  pure (.float score)

/-- `get_slice`. -/
def getSlice (self : PageRankResult α) (slice : Slice) : Except PyErr (PyObject α) := do
  let len : Int := self.scores.length
  let (start, stop, step, _) ← getIndicesEx slice len
  checkBounds (.exclusive 0 len) start start len
  let range ← if 0 ≤ step then do
      checkBounds (.inclusive 0 len) stop stop len
      let start := start.natAbs
      let stop := max stop.natAbs start
      pure (start, stop)
    else do
      checkBounds (.exclusive (-1) len) stop stop len
      let originalStop := stop
      let stop := (start + 1).natAbs
      let start := min (originalStop + 1).natAbs (stop - 1)
      pure (start, stop)
  let scores ← indexRange self.scores range.1 range.2
  if step = 1 then pure (.list scores)
  else if step = -1 then pure (.list scores.reverse)
  else if 1 < step then pure (.list (stepBy step.natAbs scores))
  else pure (.list (stepBy step.natAbs scores.reverse))

/-- `__getitem__`. -/
def getitem (slf : PageRankResult α) (key : Key) : Except PyErr (PyObject α) :=
  match extractIsize key with
  | some idx => slf.getIdx idx
  | none =>
    match key with
    | .slice slice => slf.getSlice slice
    | _ => throw ⟨.typeError, invalidTypeMessage key.typeName⟩

/-- `score`. -/
def score (self : PageRankResult α) (nodeId : Nat) : Option α := self.scores[nodeId]?

/-- `__len__`. -/
def len (self : PageRankResult α) : Nat := self.scores.length

/-- `__length_hint__`. -/
def lengthHint (self : PageRankResult α) : Nat := self.len

/-- `__contains__`: whether `key` is a node id of the result, not whether it is a score. -/
def contains (self : PageRankResult α) (key : Nat) : Bool := key < self.scores.length

end PageRankResult

/-! ## `page_rank_config` and `page_rank` -/

/-- `dict.get_item(key).map(FromPyObject::extract).transpose()?.unwrap_or(default)`. -/
def getItemOr {O V : Type} (dict : String → Option O) (extract : O → Except PyErr V)
    (key : String) (default : V) : Except PyErr V :=
  match dict key with
  | some item => extract item
  | none => pure default

/-- `FromPyObject::extract` for the three arguments of `PageRankConfig::new` (`usize`, `f64`
and `f32`, here `I`, `F` and `D`) and the `DEFAULT_*` constants of `PageRankConfig`, all
outside this crate. -/
structure ConfigFields (O I F D : Type) where
  extractMaxIterations : O → Except PyErr I
  extractTolerance : O → Except PyErr F
  extractDampingFactor : O → Except PyErr D
  defaultMaxIterations : I
  defaultTolerance : F
  defaultDampingFactor : D

section Config

variable {O I F D C : Type} (fields : ConfigFields O I F D) (new : I → F → D → C)

/-- `page_rank_config(dict)`, with `new` the `graph` crate's `PageRankConfig::new`; the
arguments are evaluated, and their `?` taken, from left to right. -/
def pageRankConfig (dict : String → Option O) : Except PyErr C := do
  let maxIterations ← getItemOr dict fields.extractMaxIterations "max_iterations"
    fields.defaultMaxIterations
  let tolerance ← getItemOr dict fields.extractTolerance "tolerance" fields.defaultTolerance
  let dampingFactor ← getItemOr dict fields.extractDampingFactor "damping_factor"
    fields.defaultDampingFactor
  pure (new maxIterations tolerance dampingFactor)

/-- `page_rank(py, graph, config)` as far as the scores: `config.map(page_rank_config)
.transpose()?`, then `inner_page_rank`'s `unwrap_or_default()` (`default`, that is
`PageRankConfig::default()`) and the scores of `graph::page_rank` (`run`). -/
def pageRank (default : C) (run : C → List α) (config : Option (String → Option O)) :
    Except PyErr (PageRankResult α) := do
  let config ← config.mapM (pageRankConfig fields new)
  pure ⟨run (config.getD default)⟩

end Config

/-! ## Against `list.__getitem__` -/

theorem stepBranches {step : Int} (nonzero : step ≠ 0) (scores : List α) :
    (if step = 1 then .ok (.list scores) else if step = -1 then .ok (.list scores.reverse)
      else if 1 < step then .ok (.list (stepBy step.natAbs scores))
      else .ok (.list (stepBy step.natAbs scores.reverse)) : Except PyErr (PyObject α)) =
    .ok (.list (stepBy step.natAbs (if 0 < step then scores else scores.reverse))) := by
  split_ifs <;> first
    | omega
    | rfl
    | subst step; simp only [Int.natAbs_neg, Int.natAbs_one, stepBy_one]


section Python

variable [Inhabited α]

theorem stepBy_forward {k : Nat} (positive : 0 < k) (xs : List α) {b e : Nat}
    (within : e ≤ xs.length) :
    stepBy k ((xs.take (max e b)).drop b) =
      pick xs k b (if (b : Int) < e then ((e : Int) - b - 1) / k + 1 else 0).toNat := by
  refine List.ext_getElem? fun i => ?_
  rw [stepBy_getElem? positive, List.getElem?_drop, List.getElem?_take, pick_getElem?]
  have iff : b + i * k < max e b ↔
      i < (if (b : Int) < e then ((e : Int) - b - 1) / k + 1 else 0).toNat := by
    split_ifs with lt
    · rw [lt_slicelength (by omega)]
      omega
    · simp only [Int.toNat_zero, Nat.not_lt_zero, iff_false]
      omega
  by_cases inside : b + i * k < max e b
  · rw [if_pos inside, if_pos (iff.mp inside), getElem?_eq_some_getD (by omega)]
    congr 2
  · rw [if_neg inside, if_neg (mt iff.mpr inside)]

theorem stepBy_backward {k : Nat} (positive : 0 < k) (xs : List α) {t : Nat} {stop : Int}
    (above : -1 ≤ stop) (below : stop < t) (within : t < xs.length) :
    stepBy k ((xs.take (t + 1)).drop (stop + 1).toNat).reverse =
      pick xs (-k) t (((t : Int) - stop - 1) / k + 1).toNat := by
  refine List.ext_getElem? fun i => ?_
  rw [stepBy_getElem? positive, pick_getElem?]
  simp only [lt_slicelength (by omega : (0 : Int) < k)]
  have length : ((xs.take (t + 1)).drop (stop + 1).toNat).length = (t - stop).toNat := by
    rw [List.length_drop, List.length_take, Nat.min_eq_left (by omega)]
    omega
  by_cases inside : i * k < (t - stop).toNat
  · rw [List.getElem?_reverse (by rw [length]; exact inside), List.getElem?_drop, List.getElem?_take, length,
      if_pos (by omega), if_pos (by omega), getElem?_eq_some_getD (by omega), mul_neg]
    congr 2
    omega
  · rw [List.getElem?_eq_none (by simp only [List.length_reverse, length]; omega),
      if_neg (by omega)]

theorem stepBy_at_start (k : Nat) (xs : List α) {t : Nat} (within : t < xs.length) :
    stepBy k ((xs.take (t + 1)).drop t).reverse = [xs.getD t default] := by
  have single : (xs.take (t + 1)).drop t = [xs.getD t default] :=
    List.ext_getElem? fun i => by
      rw [List.getElem?_drop, List.getElem?_take]
      cases i with
      | zero => rw [if_pos (by omega), Nat.add_zero, getElem?_eq_some_getD within]; rfl
      | succ i => rw [if_neg (by omega)]; rfl
  simp only [single, List.reverse_singleton, stepBy, stepByFrom, stepByFrom_nil]

namespace PageRankResult

theorem getIdx_eq (self : PageRankResult α) (idx : Int) :
    self.getIdx idx =
      (listItem self.scores (if idx < 0 then idx + self.scores.length else idx)).mapError
        fun _ => ⟨.indexError, outOfRangeMessage idx self.scores.length⟩ := by
  simp only [getIdx, listItem, checkBounds, IntRange.contains, add_comm (self.scores.length : Int) idx]
  generalize (if idx < 0 then idx + self.scores.length else idx) = index
  by_cases inRange : 0 ≤ index ∧ index < self.scores.length
  · have lt : index.toNat < self.scores.length := by omega
    rw [if_pos (by simpa only [Bool.and_eq_true, decide_eq_true_eq] using inRange), if_pos inRange]
    simp only [indexAt, getElem?_eq_some_getD lt]
    rfl
  · rw [if_neg (by simpa only [Bool.and_eq_true, decide_eq_true_eq] using inRange), if_neg inRange]
    rfl

/-- An `int` key within `isize` gets what `list.__getitem__` returns, and an `IndexError`
exactly where `list` raises one, with a message naming the key and the length; a larger
`int` is rejected as a type. -/
theorem getitem_int_eq_listSubscript (self : PageRankResult α) (v : Int) :
    self.getitem (.int v) =
      if PY_SSIZE_T_MIN ≤ v ∧ v ≤ PY_SSIZE_T_MAX then
        (listSubscript self.scores (.int v)).mapError fun _ =>
          ⟨.indexError, outOfRangeMessage v self.scores.length⟩
      else .error ⟨.typeError, invalidTypeMessage "int"⟩ := by
  by_cases fits : PY_SSIZE_T_MIN ≤ v ∧ v ≤ PY_SSIZE_T_MAX
  · simp only [getitem, extractIsize, if_pos fits, getIdx_eq, listSubscript, asSsize]
    rfl
  · simp only [getitem, extractIsize, if_neg fits]
    rfl

/-- A `slice` key gets what `list.__getitem__` returns but in two cases: an `IndexError`
when the adjusted start is not an index of the scores (as for `s[len(s):]`, and for every
slice of empty scores), and the one item at the start when the step is negative and the
adjusted stop is not below the start, where `list` returns `[]`. -/
theorem getitem_slice_eq_listSubscript (self : PageRankResult α) (slice : Slice) :
    self.getitem (.slice slice) =
      match getIndicesEx slice self.scores.length with
      | .ok (start, stop, step, _) =>
        if start < 0 ∨ self.scores.length ≤ start then
          .error ⟨.indexError, outOfRangeMessage start self.scores.length⟩
        else if step < 0 ∧ start ≤ stop then .ok (.list [self.scores.getD start.toNat default])
        else listSubscript self.scores (.slice slice)
      | .error _ => listSubscript self.scores (.slice slice) := by
  show self.getSlice slice = _
  rw [listSubscript_slice]
  match indices : getIndicesEx slice self.scores.length with
  | .error e => simp only [getSlice, indices]; rfl
  | .ok (start, stop, step, n) =>
    simp only [getSlice, indices, checkBounds, IntRange.contains, Bool.and_eq_true,
      decide_eq_true_eq, bind, Except.bind, pure, Except.pure, Except.map]
    by_cases outside : start < 0 ∨ self.scores.length ≤ start
    · rw [if_neg (by omega), if_pos outside]
    rw [if_pos (by omega), if_neg outside]
    dsimp only
    obtain ⟨t, rfl⟩ := Int.eq_ofNat_of_zero_le (by omega : 0 ≤ start)
    have within : t < self.scores.length := by omega
    rcases getIndicesEx_ok (Int.natCast_nonneg _) indices with
      ⟨positive, -, -, lower, upper, rfl⟩ | ⟨negative, -, -, lower, upper, rfl⟩
    · obtain ⟨e, rfl⟩ := Int.eq_ofNat_of_zero_le lower
      obtain ⟨k, rfl⟩ := Int.eq_ofNat_of_zero_le positive.le
      rw [if_pos positive.le, if_pos ⟨lower, upper⟩]
      dsimp only
      rw [Int.natAbs_cast, Int.natAbs_cast, indexRange_ok _ (le_max_right _ _) (max_le (by omega) (by omega))]
      dsimp only
      rw [stepBranches (by omega), if_pos positive, if_neg (by omega), Int.natAbs_cast,
        stepBy_forward (by omega) _ (by omega)]
    · obtain ⟨k, rfl⟩ : ∃ k : Nat, step = -k := ⟨step.natAbs, by omega⟩
      rw [if_neg (by omega), if_pos ⟨lower, by omega⟩]
      dsimp only
      rw [show ((t : Int) + 1).natAbs = t + 1 by omega]
      by_cases below : stop < t
      · rw [show min (stop + 1).natAbs (t + 1 - 1) = (stop + 1).toNat by omega,
          indexRange_ok _ (by omega) (by omega)]
        dsimp only
        rw [stepBranches (by omega), if_neg (by omega), if_neg (by omega), if_pos below, neg_neg,
          Int.natAbs_neg, Int.natAbs_cast, stepBy_backward (by omega) _ lower below within]
      · rw [show min (stop + 1).natAbs (t + 1 - 1) = t by omega, indexRange_ok _ (by omega) (by omega)]
        dsimp only
        rw [stepBranches (by omega), if_neg (by omega), if_pos ⟨negative, by omega⟩,
          stepBy_at_start _ _ within, Int.toNat_natCast]

/-- On the scores `[1, 2, 3]`: `s[0:2:-1]` returns `[1]` where `list` returns `[]`, and
`s[3:]` raises an `IndexError` where `list` returns `[]`. -/
theorem getitem_slice_diverges_from_list :
    (⟨[1, 2, 3]⟩ : PageRankResult Nat).getitem (.slice ⟨some 0, some 2, some (-1)⟩) =
        .ok (.list [1]) ∧
      listSubscript [1, 2, 3] (.slice ⟨some 0, some 2, some (-1)⟩) = .ok (.list []) ∧
      (⟨[1, 2, 3]⟩ : PageRankResult Nat).getitem (.slice ⟨some 3, none, none⟩) =
        .error ⟨.indexError, "Index \x273\x27 is out of range for this sequence of length \x273\x27"⟩ ∧
      listSubscript [1, 2, 3] (.slice ⟨some 3, none, none⟩) = .ok (.list []) :=
  ⟨rfl, rfl, rfl, rfl⟩

/-- `key in result`, `result.score(key)` and `result[key]` agree on every node id: all three
see exactly the indices of the scores. -/
theorem score_contains_getitem (self : PageRankResult α) (nodeId : Nat)
    (fits : (nodeId : Int) ≤ PY_SSIZE_T_MAX) :
    self.contains nodeId = (self.score nodeId).isSome ∧
      self.getitem (.int nodeId) =
        match self.score nodeId with
        | some x => .ok (.float x)
        | none => .error ⟨.indexError, outOfRangeMessage nodeId self.len⟩ := by
  have nonneg : PY_SSIZE_T_MIN ≤ nodeId := by
    simp only [PY_SSIZE_T_MIN]
    omega
  simp only [getitem, extractIsize, if_pos (And.intro nonneg fits), getIdx_eq, contains, score,
    len, listItem, if_neg (by omega : ¬(nodeId : Int) < 0), Int.toNat_natCast]
  by_cases lt : nodeId < self.scores.length
  · rw [if_pos ⟨by omega, by omega⟩, getElem?_eq_some_getD lt]
    exact ⟨decide_eq_true lt, rfl⟩
  · rw [if_neg (by omega), List.getElem?_eq_none (by omega)]
    exact ⟨decide_eq_false lt, rfl⟩

theorem score_contains_getitem_beyond :
    ((3 : Nat) : Int) ≤ PY_SSIZE_T_MAX ∧
      (⟨[1, 2, 3]⟩ : PageRankResult Nat).contains 3 = false ∧
      (⟨[1, 2, 3]⟩ : PageRankResult Nat).getitem (.int 3) =
        .error ⟨.indexError, outOfRangeMessage 3 3⟩ :=
  have fits : ((3 : Nat) : Int) ≤ PY_SSIZE_T_MAX := by decide
  ⟨fits, (score_contains_getitem ⟨[1, 2, 3]⟩ 3 fits).1, (score_contains_getitem ⟨[1, 2, 3]⟩ 3 fits).2⟩

end PageRankResult

end Python

end GraphKernels.Binding
