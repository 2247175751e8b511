import GraphKernels.PutBack

set_option autoImplicit false

/- The sequential body of a worker of `global_triangle_count`: for each `u` of a claimed
chunk, every neighbour `v` up to the first `v > u`, intersected with `neighbors(u)` below
`v` by the put-back merge. Every loop adds into the worker's running `triangles`. -/
namespace GraphKernels

open PutBack

/-- `for &v in graph.neighbors_iter(u) { if v > u { break } let mut it =
put_back_iterator(graph.neighbors_iter(u)); for &w in graph.neighbors_iter(v) {...} }` -/
def nodeLoop (g : UndirectedCsrGraph) (u : Nat) : List Nat → Nat → Nat
  | [], triangles => triangles
  | v :: vs, triangles =>
    if u < v then triangles
    else nodeLoop g u vs (intersect v (g.neighbors v) triangles (g.neighbors u)).1

/-- `for u in start..end { ... }` -/
def chunkLoop (g : UndirectedCsrGraph) (start stop triangles : Nat) : Nat :=
  (List.range' start (stop - start)).foldl
    (fun triangles u => nodeLoop g u (g.neighbors u) triangles) triangles

/-- What the enumeration of `u` adds to a worker's count. -/
def nodeTriangles (g : UndirectedCsrGraph) (u : Nat) : Nat :=
  nodeLoop g u (g.neighbors u) 0

/-- The nodes of the chunk `start..end`. -/
def chunkNodes (chunk : Nat × Nat) : List Nat :=
  List.range' chunk.1 (chunk.2 - chunk.1)

@[simp] theorem nodeLoop_nil (g : UndirectedCsrGraph) (u triangles : Nat) :
    nodeLoop g u [] triangles = triangles := rfl

theorem nodeLoop_cons (g : UndirectedCsrGraph) (u v triangles : Nat) (vs : List Nat) :
    nodeLoop g u (v :: vs) triangles =
      if u < v then triangles
      else nodeLoop g u vs (intersect v (g.neighbors v) triangles (g.neighbors u)).1 := rfl

theorem advance_fst_add (w triangles : Nat) (it : List Nat) :
    (advance w triangles it).1 = triangles + (advance w 0 it).1 := by
  induction it with
  | nil => rfl
  | cons x rest ih =>
    by_cases reached : w ≤ x
    · by_cases hit : x = w <;> simp [advance, reached, hit]
    · simp [advance, reached, ih]

theorem intersect_fst_add (v : Nat) (ws it : List Nat) (triangles : Nat) :
    (intersect v ws triangles it).1 = triangles + (intersect v ws 0 it).1 := by
  induction ws generalizing triangles it with
  | nil => rfl
  | cons w ws ih =>
    by_cases stop : v < w
    · simp [intersect_cons, stop]
    · have sameIt : (advance w triangles it).2 = (advance w 0 it).2 := by
        rw [advance_snd, advance_snd]
      rw [intersect_cons, intersect_cons, if_neg stop, if_neg stop, sameIt, ih,
        ih (advance w 0 it).2 (advance w 0 it).1, advance_fst_add w triangles]
      omega

theorem nodeLoop_add (g : UndirectedCsrGraph) (u : Nat) (vs : List Nat) (triangles : Nat) :
    nodeLoop g u vs triangles = triangles + nodeLoop g u vs 0 := by
  induction vs generalizing triangles with
  | nil => rfl
  | cons v vs ih =>
    by_cases stop : u < v
    · simp [nodeLoop_cons, stop]
    · rw [nodeLoop_cons, nodeLoop_cons, if_neg stop, if_neg stop, ih, ih (intersect _ _ 0 _).1,
        intersect_fst_add]
      omega

theorem foldl_nodeLoop (g : UndirectedCsrGraph) (us : List Nat) (triangles : Nat) :
    us.foldl (fun triangles u => nodeLoop g u (g.neighbors u) triangles) triangles =
      triangles + (us.map (nodeTriangles g)).sum := by
  induction us generalizing triangles with
  | nil => rfl
  | cons u us ih =>
    rw [List.foldl_cons, ih, nodeLoop_add, List.map_cons, List.sum_cons, nodeTriangles]
    omega

/-- A chunk adds the enumeration of each of its nodes. -/
theorem chunkLoop_eq (g : UndirectedCsrGraph) (start stop triangles : Nat) :
    chunkLoop g start stop triangles =
      triangles + ((chunkNodes (start, stop)).map (nodeTriangles g)).sum :=
  foldl_nodeLoop g _ triangles

/-- On ascending slices the enumeration of `u` sums, over its neighbours `v ≤ u`, the
neighbours `w ≤ v` of `v` that are also neighbours of `u`. -/
theorem nodeLoop_eq_sum (g : UndirectedCsrGraph) (u : Nat) (vs : List Nat) (triangles : Nat)
    (ascVs : vs.Sorted (· ≤ ·)) (ascU : (g.neighbors u).Sorted (· ≤ ·))
    (ascV : ∀ v ∈ vs, (g.neighbors v).Sorted (· ≤ ·)) :
    nodeLoop g u vs triangles = triangles + ((vs.filter (· ≤ u)).map fun v =>
      (g.neighbors v).countP fun w => w ≤ v ∧ w ∈ g.neighbors u).sum := by
  induction vs generalizing triangles with
  | nil => rfl
  | cons v vs ih =>
    obtain ⟨above, ascVs⟩ := List.sorted_cons.mp ascVs
    by_cases stop : u < v
    · have none : (v :: vs).filter (· ≤ u) = [] :=
        List.filter_eq_nil_iff.mpr fun y mem => by
          have : v ≤ y := (List.mem_cons.mp mem).elim (fun h => h ▸ le_refl v) (above y)
          simp only [decide_eq_true_eq]
          omega
      rw [nodeLoop_cons, if_pos stop, none]
      rfl
    · rw [nodeLoop_cons, if_neg stop, ih _ ascVs fun y mem => ascV y (List.mem_cons_of_mem v mem),
        intersect_fst v _ _ _ _ (ascV v (List.mem_cons_self v vs)) ascU fun _ _ => Iff.rfl,
        List.filter_cons_of_pos (by simpa using Nat.le_of_not_lt stop)]
      simp only [List.map_cons, List.sum_cons]
      omega

/-! ## The `next()` calls -/

/-- The `next()` calls on the put-back iterators while enumerating `u`, over its neighbours
`vs` from the current one on. -/
def nodeNexts (g : UndirectedCsrGraph) (u : Nat) : List Nat → Nat
  | [] => 0
  | v :: vs =>
    if u < v then 0 else intersectNexts v (g.neighbors v) (g.neighbors u) + nodeNexts g u vs

theorem nodeNexts_le (g : UndirectedCsrGraph) (u : Nat) (vs : List Nat) :
    nodeNexts g u vs ≤ ((vs.takeWhile (· ≤ u)).map fun v =>
      (g.neighbors u).length + (g.neighbors v).length).sum := by
  induction vs with
  | nil => simp [nodeNexts]
  | cons v vs ih =>
    by_cases stop : u < v
    · simp [nodeNexts, stop]
    · have merge := intersectNexts_add_length v 0 (g.neighbors v) (g.neighbors u)
      have within := (List.takeWhile_sublist (· ≤ v) (l := g.neighbors v)).length_le
      have taken : (v :: vs).takeWhile (· ≤ u) = v :: vs.takeWhile (· ≤ u) := by
        simp [List.takeWhile_cons, Nat.le_of_not_lt stop]
      rw [nodeNexts, if_neg stop, taken, List.map_cons, List.sum_cons]
      omega

/-- The put-back merge never rereads: for each neighbour `v ≤ u`, every `next()` on the
iterator over `neighbors(u)` drops an element for good, except one per `w ≤ v` of
`neighbors(v)` processed; so enumerating `u` makes at most `deg(u) + deg(v)` calls for each
such `v`. -/
theorem enumeration_nexts_linear (g : UndirectedCsrGraph) (u : Nat) :
    (∀ v triangles, intersectNexts v (g.neighbors v) (g.neighbors u) +
        (intersect v (g.neighbors v) triangles (g.neighbors u)).2.length =
      (g.neighbors u).length + ((g.neighbors v).takeWhile (· ≤ v)).length) ∧
    nodeNexts g u (g.neighbors u) ≤ (((g.neighbors u).takeWhile (· ≤ u)).map fun v =>
      (g.neighbors u).length + (g.neighbors v).length).sum :=
  ⟨fun v triangles => intersectNexts_add_length v triangles _ _, nodeNexts_le g u _⟩

end GraphKernels
