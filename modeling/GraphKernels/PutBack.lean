import GraphKernels.Csr

set_option autoImplicit false

/- The intersection at the heart of `global_triangle_count`: for fixed `u` and `v`, a
put-back iterator over `neighbors(u)` is advanced in step with `neighbors(v)`. The
iterator is fresh for every `v` and is never rewound. -/
namespace GraphKernels.PutBack

/-- `while let Some(x) = it.next() { if x >= &w { if x == &w { triangles += 1 }
it.put_back(x); break } }`, the iterator given by the elements it will still yield.
The code only puts back the element `next()` has just returned, so the one-element
buffer of `itertools::PutBack` is this list's head. -/
def advance (w triangles : Nat) : List Nat → Nat × List Nat
  | [] => (triangles, [])
  | x :: rest =>
    if w ≤ x then (if x = w then triangles + 1 else triangles, x :: rest)
    else advance w triangles rest

/-- `for &w in graph.neighbors_iter(v) { if w > v { break } ... }` with the iterator `it`;
returns the count and the iterator as the loop leaves them. -/
def intersect (v : Nat) : List Nat → Nat → List Nat → Nat × List Nat
  | [], triangles, it => (triangles, it)
  | w :: ws, triangles, it =>
    if v < w then (triangles, it)
    else intersect v ws (advance w triangles it).1 (advance w triangles it).2

@[simp] theorem intersect_nil (v triangles : Nat) (it : List Nat) :
    intersect v [] triangles it = (triangles, it) := rfl

theorem intersect_cons (v w triangles : Nat) (ws it : List Nat) :
    intersect v (w :: ws) triangles it =
      if v < w then (triangles, it)
      else intersect v ws (advance w triangles it).1 (advance w triangles it).2 := rfl

/-- The iterator stops at the first element not below `w`, which it puts back. -/
theorem advance_snd (w triangles : Nat) (it : List Nat) :
    (advance w triangles it).2 = it.dropWhile (· < w) := by
  induction it with
  | nil => rfl
  | cons x rest ih =>
    by_cases below : x < w
    · simp [advance, below, ih, Nat.not_le.mpr below]
    · simp [advance, below, Nat.le_of_not_lt below]

/-- On an ascending iterator `w` is counted exactly when it is still to come. -/
theorem advance_fst (w triangles : Nat) (it : List Nat) (asc : it.Sorted (· ≤ ·)) :
    (advance w triangles it).1 = triangles + if w ∈ it then 1 else 0 := by
  induction it with
  | nil => simp [advance]
  | cons x rest ih =>
    obtain ⟨above, asc⟩ := List.sorted_cons.mp asc
    by_cases reached : w ≤ x
    · by_cases hit : x = w
      · simp [advance, reached, hit]
      · have absent : w ∉ rest := fun mem => by have := above w mem; omega
        simp [advance, reached, hit, absent, Ne.symm hit]
    · have skipped : w ≠ x := by omega
      simp [advance, reached, ih asc, skipped]

theorem dropWhile_lt_eq_filter (w : Nat) (it : List Nat) (asc : it.Sorted (· ≤ ·)) :
    it.dropWhile (· < w) = it.filter (w ≤ ·) := by
  induction it with
  | nil => rfl
  | cons x rest ih =>
    obtain ⟨above, asc⟩ := List.sorted_cons.mp asc
    by_cases below : x < w
    · simp [below, ih asc, Nat.not_le.mpr below]
    · have kept : rest.filter (w ≤ ·) = rest :=
        List.filter_eq_self.mpr fun y mem => by have := above y mem; simp; omega
      simp [below, Nat.le_of_not_lt below, kept]

theorem Sorted.advance {it : List Nat} (asc : it.Sorted (· ≤ ·)) (w triangles : Nat) :
    (advance w triangles it).2.Sorted (· ≤ ·) := by
  rw [advance_snd]
  exact asc.sublist (List.dropWhile_sublist _)

/-- The count: every `w ≤ v` of `ws` still in the iterator, with the multiplicity of `ws`. -/
theorem intersect_fst (v : Nat) (A ws it : List Nat) (triangles : Nat)
    (ascW : ws.Sorted (· ≤ ·)) (ascIt : it.Sorted (· ≤ ·))
    (same : ∀ w ∈ ws, w ∈ it ↔ w ∈ A) :
    (intersect v ws triangles it).1 = triangles + ws.countP (fun w => w ≤ v ∧ w ∈ A) := by
  induction ws generalizing triangles it with
  | nil => rfl
  | cons w ws ih =>
    obtain ⟨above, ascW⟩ := List.sorted_cons.mp ascW
    by_cases stop : v < w
    · have none : (w :: ws).countP (fun w => w ≤ v ∧ w ∈ A) = 0 :=
        List.countP_eq_zero.mpr fun y mem => by
          have : w ≤ y := (List.mem_cons.mp mem).elim (fun h => h ▸ le_refl w) (above y)
          simp only [decide_eq_true_eq, not_and]
          omega
      rw [intersect_cons, if_pos stop, none]
      rfl
    · have kept : ∀ y ∈ ws, y ∈ (advance w triangles it).2 ↔ y ∈ A := by
        intro y mem
        rw [advance_snd, dropWhile_lt_eq_filter w it ascIt, List.mem_filter, ← same y
          (List.mem_cons_of_mem w mem)]
        simp [above y mem]
      rw [intersect_cons, if_neg stop, ih _ _ ascW (Sorted.advance ascIt w triangles) kept, advance_fst w triangles it ascIt,
        List.countP_cons]
      have counted := same w (List.mem_cons_self w ws)
      by_cases mem : w ∈ A
      · simp [mem, counted.mpr mem, Nat.le_of_not_lt stop]
        omega
      · simp [mem, mt counted.mp mem]

/-- The iterator after a run of `w ≤ v`: the elements not below any `w` processed. -/
theorem intersect_snd (v : Nat) (ws it : List Nat) (triangles : Nat)
    (ascIt : it.Sorted (· ≤ ·)) (within : ∀ w ∈ ws, w ≤ v) :
    (intersect v ws triangles it).2 = it.filter fun x => ∀ w ∈ ws, w ≤ x := by
  induction ws generalizing triangles it with
  | nil => simp
  | cons w ws ih =>
    have go : ¬ v < w := Nat.not_lt.mpr (within w (List.mem_cons_self w ws))
    rw [intersect_cons, if_neg go, ih _ _ (Sorted.advance ascIt w triangles) fun y mem =>
      within y (List.mem_cons_of_mem w mem), advance_snd, dropWhile_lt_eq_filter w it ascIt,
      List.filter_filter]
    simp [Bool.and_comm]

theorem intersect_append (v : Nat) (ws₁ ws₂ it : List Nat) (triangles : Nat)
    (within : ∀ w ∈ ws₁, w ≤ v) :
    intersect v (ws₁ ++ ws₂) triangles it =
      intersect v ws₂ (intersect v ws₁ triangles it).1 (intersect v ws₁ triangles it).2 := by
  induction ws₁ generalizing triangles it with
  | nil => rfl
  | cons w ws ih =>
    have go : ¬ v < w := Nat.not_lt.mpr (within w (List.mem_cons_self w ws))
    simp only [List.cons_append, intersect_cons, if_neg go]
    exact ih _ _ fun y mem => within y (List.mem_cons_of_mem w mem)

/-- The merge adds `|{i : B[i] ≤ v ∧ B[i] ∈ A}|`, and after any unbroken prefix of `B` the
iterator holds exactly the elements of `A` not below a processed `w`: none that a later
`w` could match has been skipped. -/
theorem intersect_counts_common_below (A B : List Nat) (v triangles : Nat)
    (ascA : A.Sorted (· ≤ ·)) (ascB : B.Sorted (· ≤ ·)) :
    (intersect v B triangles A).1 = triangles + B.countP (fun w => w ≤ v ∧ w ∈ A) ∧
    ∀ B₁ B₂, B = B₁ ++ B₂ → (∀ w ∈ B₁, w ≤ v) →
      intersect v B triangles A =
          intersect v B₂ (intersect v B₁ triangles A).1 (A.filter fun x => ∀ w ∈ B₁, w ≤ x) ∧
        ∀ w ∈ B₂, w ∈ A → w ∈ A.filter fun x => ∀ w ∈ B₁, w ≤ x := by
  refine ⟨intersect_fst v A B A triangles ascB ascA fun _ _ => Iff.rfl, ?_⟩
  rintro B₁ B₂ rfl within
  refine ⟨by rw [intersect_append v B₁ B₂ A triangles within, intersect_snd v B₁ A triangles ascA
    within], fun w later mem => List.mem_filter.mpr ⟨mem, ?_⟩⟩
  exact decide_eq_true fun w' earlier => (List.pairwise_append.mp ascB).2.2 w' earlier w later

/-! ## The `next()` calls -/

/-- The `it.next()` calls of `advance`: one per element below `w`, and one more that returns
the element it puts back, or `None`. -/
def advanceNexts (w : Nat) : List Nat → Nat
  | [] => 1
  | x :: rest => if w ≤ x then 1 else advanceNexts w rest + 1

/-- The `it.next()` calls of `intersect`; the iterator each `w` leaves does not depend on the
count. -/
def intersectNexts (v : Nat) : List Nat → List Nat → Nat
  | [], _ => 0
  | w :: ws, it => if v < w then 0 else advanceNexts w it + intersectNexts v ws (advance w 0 it).2

/-- Each `next()` of one `while let` drops an element below `w` for good, except the one
that ends the loop. -/
theorem advanceNexts_add_length (w triangles : Nat) (it : List Nat) :
    advanceNexts w it + (advance w triangles it).2.length = it.length + 1 := by
  induction it with
  | nil => rfl
  | cons x rest ih =>
    by_cases reached : w ≤ x
    · simp only [advanceNexts, advance, if_pos reached, List.length_cons]
      omega
    · simp only [advanceNexts, advance, if_neg reached, List.length_cons]
      omega

/-- Over the loop on `neighbors(v)` the iterator is never rewound: every `next()` drops an
element for good, except one per `w ≤ v` processed. -/
theorem intersectNexts_add_length (v triangles : Nat) (ws it : List Nat) :
    intersectNexts v ws it + (intersect v ws triangles it).2.length =
      it.length + (ws.takeWhile (· ≤ v)).length := by
  induction ws generalizing triangles it with
  | nil => simp [intersectNexts]
  | cons w ws ih =>
    by_cases stop : v < w
    · simp [intersectNexts, intersect_cons, stop]
    · have first := advanceNexts_add_length w triangles it
      have rest := ih (advance w triangles it).1 (advance w triangles it).2
      have taken : (w :: ws).takeWhile (· ≤ v) = w :: ws.takeWhile (· ≤ v) := by
        simp [List.takeWhile_cons, Nat.le_of_not_lt stop]
      simp only [advance_snd] at first rest
      simp only [intersectNexts, intersect_cons, if_neg stop, advance_snd, taken,
        List.length_cons]
      omega

theorem intersect_counts_common_below_example :
    (intersect 5 [1, 2, 3, 6] 0 [2, 3, 3, 4]).1 = 2 :=
  (intersect_counts_common_below [2, 3, 3, 4] [1, 2, 3, 6] 5 0 (by decide) (by decide)).1.trans
    (by decide)

end GraphKernels.PutBack
