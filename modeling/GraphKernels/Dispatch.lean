import GraphKernels.Triangles

set_option autoImplicit false

/- The workers of `global_triangle_count` as a transition system. `T` workers
(`rayon::current_num_threads()`) share the cursor `next_chunk` and the counter
`total_triangles`; each worker's atomic steps are the `fetch_add` that claims a chunk,
the enumeration of the claimed chunk (it touches only thread-local state), and the
final `fetch_add` of its count. Any worker may move at any time, so the reachable
states cover every interleaving. The `u64` counters are unbounded here; `NI`'s
addition is a parameter, unbounded for the counting results and a machine word in
`GraphKernels.Overflow`. -/
namespace GraphKernels.Dispatch

/-- `const CHUNK_SIZE: usize = 64;` -/
def CHUNK_SIZE : Nat := 64

/-- Where a worker stands in its closure: at the top of `loop` (`claim`), holding the chunk
`start..end` (`work`), out of `loop` before its `fetch_add` on `total_triangles` (`publish`),
or returned (`done`). -/
inductive Phase where
  | claim
  | work (start stop : Nat)
  | publish
  | done
  deriving DecidableEq, Repr

/-- One spawned closure: its phase, its thread-local `triangles` and, as ghost state, the
chunks it has enumerated, in order. -/
structure Worker where
  phase : Phase
  triangles : Nat
  chunks : List (Nat × Nat)
  deriving Repr

structure State (T : Nat) where
  nextChunk : Nat
  totalTriangles : Nat
  workers : Fin T → Worker

variable {T : Nat}

/-- `next_chunk` and `total_triangles` at zero, every worker about to claim. -/
def init (T : Nat) : State T := ⟨0, 0, fun _ => ⟨.claim, 0, []⟩⟩

/-- `let start = NI::fetch_add(&next_chunk, NI::new(CHUNK_SIZE), AcqRel); if start >=
graph.node_count() { break } let end = (start + NI::new(CHUNK_SIZE)).min(graph.node_count());`
with `add` as `NI`'s addition. A debug build panics where `start + NI::new(CHUNK_SIZE)`
overflows; `Overflow.wrappingAdd` is the release build's wrapping addition. -/
def fetchChunk (add : Nat → Nat → Nat) (g : UndirectedCsrGraph) (chunkSize : Nat)
    (s : State T) (i : Fin T) : State T :=
  let start := s.nextChunk
  { s with
    nextChunk := add start chunkSize
    workers := Function.update s.workers i
      { s.workers i with
        phase := if g.nodeCount ≤ start then .publish
          else .work start (min (add start chunkSize) g.nodeCount) } }

/-- `for u in start..end { ... }`, back to the top of `loop`. -/
def enumerateChunk (g : UndirectedCsrGraph) (s : State T) (i : Fin T) (start stop : Nat) :
    State T :=
  { s with
    workers := Function.update s.workers i
      { phase := .claim
        triangles := chunkLoop g start stop (s.workers i).triangles
        chunks := (s.workers i).chunks ++ [(start, stop)] } }

/-- `total_triangles.fetch_add(triangles, AcqRel);` -/
def publishCount (s : State T) (i : Fin T) : State T :=
  { s with
    totalTriangles := s.totalTriangles + (s.workers i).triangles
    workers := Function.update s.workers i { s.workers i with phase := .done } }

/-- The next atomic step of worker `i`; `none` once it has returned. -/
def step (add : Nat → Nat → Nat) (g : UndirectedCsrGraph) (chunkSize : Nat) (s : State T)
    (i : Fin T) : Option (State T) :=
  match (s.workers i).phase with
  | .claim => some (fetchChunk add g chunkSize s i)
  | .work start stop => some (enumerateChunk g s i start stop)
  | .publish => some (publishCount s i)
  | .done => none

def Step (add : Nat → Nat → Nat) (g : UndirectedCsrGraph) (chunkSize : Nat)
    (s s' : State T) : Prop :=
  ∃ i, step add g chunkSize s i = some s'

/-- The states of some interleaving of the workers. -/
def Reachable (add : Nat → Nat → Nat) (g : UndirectedCsrGraph) (chunkSize : Nat)
    (s : State T) : Prop :=
  Relation.ReflTransGen (Step add g chunkSize) (init T) s

/-- Every worker has returned: `rayon::scope` is over and `total_triangles.load` is read. -/
def Finished (s : State T) : Prop := ∀ i, (s.workers i).phase = .done

theorem step_cases {add : Nat → Nat → Nat} {g : UndirectedCsrGraph} {chunkSize : Nat}
    {s s' : State T} {i : Fin T} (h : step add g chunkSize s i = some s') :
    ((s.workers i).phase = .claim ∧ s' = fetchChunk add g chunkSize s i) ∨
    (∃ start stop, (s.workers i).phase = .work start stop ∧
      s' = enumerateChunk g s i start stop) ∨
    ((s.workers i).phase = .publish ∧ s' = publishCount s i) := by
  unfold step at h
  split at h <;> cases h
  · exact .inl ⟨‹_›, rfl⟩
  · exact .inr (.inl ⟨_, _, ‹_›, rfl⟩)
  · exact .inr (.inr ⟨‹_›, rfl⟩)

theorem step_eq_none_iff (add : Nat → Nat → Nat) (g : UndirectedCsrGraph) (chunkSize : Nat)
    (s : State T) (i : Fin T) :
    step add g chunkSize s i = none ↔ (s.workers i).phase = .done := by
  unfold step
  split <;> simp_all

theorem reachable_of_run {add : Nat → Nat → Nat} {g : UndirectedCsrGraph} {chunkSize : Nat}
    (run : ℕ → State T) (start : run 0 = init T) (k : ℕ)
    (moves : ∀ j < k, Step add g chunkSize (run j) (run (j + 1))) :
    Reachable add g chunkSize (run k) := by
  induction k with
  | zero => rw [start]; exact .refl
  | succ k ih =>
    exact (ih fun j lt => moves j (Nat.lt_succ_of_lt lt)).tail (moves k (Nat.lt_succ_self k))

/-! ## The invariant

Ghost views of a worker: the chunk it holds, whether it has left `loop`, the nodes it has
enumerated or claimed, and what it has added into `total_triangles`. -/

def Phase.inflight : Phase → List (Nat × Nat)
  | .work start stop => [(start, stop)]
  | _ => []

@[simp] theorem Phase.inflight_claim : Phase.claim.inflight = [] := rfl
@[simp] theorem Phase.inflight_work (start stop : Nat) :
    (Phase.work start stop).inflight = [(start, stop)] := rfl
@[simp] theorem Phase.inflight_publish : Phase.publish.inflight = [] := rfl
@[simp] theorem Phase.inflight_done : Phase.done.inflight = [] := rfl

def Phase.Exited (p : Phase) : Prop := p = .publish ∨ p = .done

def Worker.nodes (w : Worker) : List Nat := w.chunks.flatMap chunkNodes

def Worker.claimed (w : Worker) : Multiset Nat :=
  ↑w.nodes + ↑(w.phase.inflight.flatMap chunkNodes)

def Worker.published (w : Worker) : Nat := if w.phase = .done then w.triangles else 0

/-- What one worker keeps: its count is that of the nodes it has enumerated, and each
chunk it has claimed is `start..min(start + CHUNK_SIZE, node_count)`. -/
structure WorkerInv (g : UndirectedCsrGraph) (chunkSize : Nat) (w : Worker) : Prop where
  counted : w.triangles = (w.nodes.map (nodeTriangles g)).sum
  shape : ∀ c ∈ w.chunks ++ w.phase.inflight, c.2 = min (c.1 + chunkSize) g.nodeCount

/-- What holds between the atomics and the workers in every interleaving, with `NI`'s
addition unbounded: the claimed nodes are exactly those below the cursor, each once. -/
structure Inv (g : UndirectedCsrGraph) (chunkSize : Nat) (s : State T) : Prop where
  workers : ∀ i, WorkerInv g chunkSize (s.workers i)
  published : s.totalTriangles = ∑ i, (s.workers i).published
  claimed : ∑ i, (s.workers i).claimed = Multiset.range (min s.nextChunk g.nodeCount)
  exited : ∀ i, (s.workers i).phase.Exited → g.nodeCount ≤ s.nextChunk

theorem sum_update_add {β : Type} [AddCommMonoid β] (ws : Fin T → Worker) (i : Fin T)
    (w : Worker) (f : Worker → β) :
    ∑ j, f (Function.update ws i w j) + f (ws i) = ∑ j, f (ws j) + f w := by
  rw [← Finset.add_sum_erase _ _ (Finset.mem_univ i), ← Finset.add_sum_erase _ _ (Finset.mem_univ i),
    Function.update_same, Finset.sum_congr rfl fun j mem => by
      rw [Function.update_noteq (Finset.ne_of_mem_erase mem)]]
  rw [add_right_comm, add_comm (f w), add_right_comm]

theorem sum_update_of_eq_add {β : Type} [AddCancelCommMonoid β] (ws : Fin T → Worker)
    (i : Fin T) (w : Worker) (f : Worker → β) (d : β) (delta : f w = f (ws i) + d) :
    ∑ j, f (Function.update ws i w j) = ∑ j, f (ws j) + d := by
  have moved := sum_update_add ws i w f
  rw [delta, ← add_assoc, add_right_comm] at moved
  exact add_right_cancel moved

theorem range_add_chunkNodes (start chunkSize n : Nat) (below : start < n) :
    Multiset.range (min start n) + ↑(chunkNodes (start, min (start + chunkSize) n)) =
      Multiset.range (min (start + chunkSize) n) := by
  obtain ⟨k, hk⟩ : ∃ k, min (start + chunkSize) n = start + k :=
    ⟨_, (Nat.add_sub_cancel' (by omega)).symm⟩
  have joined := List.range'_append_1 0 start k
  rw [Nat.zero_add] at joined
  rw [hk, chunkNodes, Nat.min_eq_left below.le, ← Multiset.coe_range, ← Multiset.coe_range,
    List.range_eq_range', List.range_eq_range', Multiset.coe_add]
  dsimp only
  rw [Nat.add_sub_cancel_left, joined, Nat.add_comm]

section Preservation

variable {g : UndirectedCsrGraph} {chunkSize : Nat} {s : State T} {i : Fin T}

theorem Inv.fetchChunk (inv : Inv g chunkSize s) (claim : (s.workers i).phase = .claim) :
    Inv g chunkSize (fetchChunk (· + ·) g chunkSize s i) := by
  have old := inv.workers i
  have idle : ∀ c, c ∈ (s.workers i).chunks → c ∈ (s.workers i).chunks ++ (s.workers i).phase.inflight :=
    fun c mem => List.mem_append_left _ mem
  by_cases full : g.nodeCount ≤ s.nextChunk
  · refine ⟨?_, ?_, ?_, ?_⟩ <;> simp only [GraphKernels.Dispatch.fetchChunk, if_pos full]
    · exact (Function.forall_update_iff _ fun _ => WorkerInv g chunkSize).mpr
        ⟨⟨old.counted, fun c mem => old.shape c (idle c (by simpa [Phase.inflight] using mem))⟩,
          fun j _ => inv.workers j⟩
    · rw [sum_update_of_eq_add _ _ _ _ 0 (by simp [Worker.published, claim]), add_zero,
        inv.published]
    · rw [sum_update_of_eq_add _ _ _ _ 0 (by simp [Worker.claimed, Worker.nodes, claim,
        Phase.inflight]), add_zero, inv.claimed, Nat.min_eq_right full, Nat.min_eq_right (by omega)]
    · exact (Function.forall_update_iff s.workers fun _ w =>
        w.phase.Exited → g.nodeCount ≤ s.nextChunk + chunkSize).mpr
        ⟨fun _ => by omega, fun j _ exited => (inv.exited j exited).trans (by omega)⟩
  · have below : s.nextChunk < g.nodeCount := by omega
    refine ⟨?_, ?_, ?_, ?_⟩ <;> simp only [GraphKernels.Dispatch.fetchChunk, if_neg full]
    · refine (Function.forall_update_iff _ fun _ => WorkerInv g chunkSize).mpr
        ⟨⟨old.counted, fun c mem => ?_⟩, fun j _ => inv.workers j⟩
      simp only [List.mem_append, Phase.inflight_work, List.mem_singleton] at mem
      rcases mem with mem | rfl
      · exact old.shape c (idle c mem)
      · rfl
    · rw [sum_update_of_eq_add _ _ _ _ 0 (by simp [Worker.published, claim]), add_zero,
        inv.published]
    · rw [sum_update_of_eq_add _ _ _ _ ↑(chunkNodes (s.nextChunk, min (s.nextChunk + chunkSize)
        g.nodeCount)) (by simp [Worker.claimed, Worker.nodes, claim]), inv.claimed,
        range_add_chunkNodes _ _ _ below]
    · exact (Function.forall_update_iff s.workers fun _ w =>
        w.phase.Exited → g.nodeCount ≤ s.nextChunk + chunkSize).mpr
        ⟨fun exited => by simp [Phase.Exited] at exited,
          fun j _ exited => (inv.exited j exited).trans (by omega)⟩

theorem Inv.enumerateChunk {start stop : Nat} (inv : Inv g chunkSize s)
    (work : (s.workers i).phase = .work start stop) :
    Inv g chunkSize (enumerateChunk g s i start stop) := by
  have old := inv.workers i
  have held : (s.workers i).phase.inflight = [(start, stop)] := by rw [work]; rfl
  refine ⟨(Function.forall_update_iff _ fun _ => WorkerInv g chunkSize).mpr
    ⟨⟨?_, ?_⟩, fun j _ => inv.workers j⟩, ?_, ?_, ?_⟩
  · simp only [chunkLoop_eq, old.counted, Worker.nodes, List.flatMap_append, List.map_append,
      List.sum_append, List.flatMap_cons, List.flatMap_nil, List.append_nil]
  · simpa [held] using old.shape
  · rw [GraphKernels.Dispatch.enumerateChunk, sum_update_of_eq_add _ _ _ _ 0
      (by simp [Worker.published, work]), add_zero, inv.published]
  · rw [GraphKernels.Dispatch.enumerateChunk, sum_update_of_eq_add _ _ _ _ 0
      (by simp [Worker.claimed, Worker.nodes, held]), add_zero, inv.claimed]
  · exact (Function.forall_update_iff s.workers fun _ w => w.phase.Exited → g.nodeCount ≤ s.nextChunk).mpr
      ⟨fun exited => by simp [Phase.Exited] at exited, fun j _ => inv.exited j⟩

theorem Inv.publishCount (inv : Inv g chunkSize s) (publish : (s.workers i).phase = .publish) :
    Inv g chunkSize (publishCount s i) := by
  have old := inv.workers i
  have idle : (s.workers i).phase.inflight = [] := by rw [publish]; rfl
  refine ⟨(Function.forall_update_iff _ fun _ => WorkerInv g chunkSize).mpr
    ⟨⟨old.counted, ?_⟩, fun j _ => inv.workers j⟩, ?_, ?_, ?_⟩
  · simpa [idle] using old.shape
  · rw [GraphKernels.Dispatch.publishCount, sum_update_of_eq_add _ _ _ _ (s.workers i).triangles
      (by simp [Worker.published, publish]), inv.published]
  · rw [GraphKernels.Dispatch.publishCount, sum_update_of_eq_add _ _ _ _ 0
      (by simp [Worker.claimed, Worker.nodes, idle]), add_zero, inv.claimed]
  · exact (Function.forall_update_iff s.workers fun _ w => w.phase.Exited → g.nodeCount ≤ s.nextChunk).mpr
      ⟨fun _ => inv.exited i (.inl publish), fun j _ => inv.exited j⟩

theorem Inv.init : Inv g chunkSize (init T) :=
  ⟨fun _ => ⟨rfl, by simp [GraphKernels.Dispatch.init]⟩,
    by simp [GraphKernels.Dispatch.init, Worker.published],
    by simp [GraphKernels.Dispatch.init, Worker.claimed, Worker.nodes],
    fun _ exited => by simp [GraphKernels.Dispatch.init, Phase.Exited] at exited⟩

theorem Inv.step {s' : State T} (inv : Inv g chunkSize s)
    (h : step (· + ·) g chunkSize s i = some s') : Inv g chunkSize s' := by
  rcases step_cases h with ⟨claim, rfl⟩ | ⟨start, stop, work, rfl⟩ | ⟨publish, rfl⟩
  · exact inv.fetchChunk claim
  · exact inv.enumerateChunk work
  · exact inv.publishCount publish

/-- The invariant holds in every interleaving. -/
theorem Reachable.inv (reach : Reachable (· + ·) g chunkSize s) : Inv g chunkSize s := by
  induction reach with
  | refl => exact Inv.init
  | tail _ next ih =>
    obtain ⟨i, h⟩ := next
    exact ih.step h

end Preservation

/-! ## Termination -/

def Phase.weight : Phase → Nat
  | .claim => 2
  | .work _ _ => 3
  | .publish => 1
  | .done => 0

@[simp] theorem Phase.weight_claim : Phase.claim.weight = 2 := rfl
@[simp] theorem Phase.weight_work (start stop : Nat) : (Phase.work start stop).weight = 3 := rfl
@[simp] theorem Phase.weight_publish : Phase.publish.weight = 1 := rfl
@[simp] theorem Phase.weight_done : Phase.done.weight = 0 := rfl

/-- Three for each node not yet claimed, plus each worker's distance from returning. -/
def rank (g : UndirectedCsrGraph) (s : State T) : Nat :=
  3 * (g.nodeCount - s.nextChunk) + ∑ i, (s.workers i).phase.weight

section Termination

variable {g : UndirectedCsrGraph} {chunkSize : Nat} {s s' : State T} {i : Fin T}

theorem rank_lt (positive : 0 < chunkSize) (h : step (· + ·) g chunkSize s i = some s') :
    rank g s' < rank g s := by
  have moved := fun w => sum_update_add s.workers i w fun w => w.phase.weight
  rcases step_cases h with ⟨claim, rfl⟩ | ⟨start, stop, work, rfl⟩ | ⟨publish, rfl⟩
  · by_cases full : g.nodeCount ≤ s.nextChunk
    · have := moved { s.workers i with phase := .publish }
      simp only [claim, Phase.weight_claim, Phase.weight_publish, Phase.weight_work] at this
      simp only [rank, fetchChunk, if_pos full]
      omega
    · have := moved { s.workers i with
        phase := .work s.nextChunk (min (s.nextChunk + chunkSize) g.nodeCount) }
      simp only [claim, Phase.weight_claim, Phase.weight_publish, Phase.weight_work] at this
      simp only [rank, fetchChunk, if_neg full]
      omega
  · have := moved ⟨.claim, chunkLoop g start stop (s.workers i).triangles,
      (s.workers i).chunks ++ [(start, stop)]⟩
    simp only [work, Phase.weight_work, Phase.weight_claim] at this
    simp only [rank, enumerateChunk]
    omega
  · have := moved { s.workers i with phase := .done }
    simp only [publish, Phase.weight_publish, Phase.weight_done] at this
    simp only [rank, publishCount]
    omega

/-- No interleaving runs forever, from any state. -/
theorem no_infinite_run (positive : 0 < chunkSize) (run : ℕ → State T) :
    ¬ ∀ k, Step (· + ·) g chunkSize (run k) (run (k + 1)) := by
  intro steps
  have fall : ∀ k, rank g (run k) + k ≤ rank g (run 0) := by
    intro k
    induction k with
    | zero => simp
    | succ k ih =>
      obtain ⟨i, h⟩ := steps k
      have := rank_lt positive h
      omega
  have := fall (rank g (run 0) + 1)
  omega

/-- Workers moving until none can: every such run ends with all of them returned. -/
theorem completes (positive : 0 < chunkSize) (s : State T) :
    ∃ s', Relation.ReflTransGen (Step (· + ·) g chunkSize) s s' ∧ Finished s' := by
  obtain ⟨r, hr⟩ : ∃ r, rank g s = r := ⟨_, rfl⟩
  induction r using Nat.strong_induction_on generalizing s with
  | _ r ih =>
    by_cases fin : Finished s
    · exact ⟨s, .refl, fin⟩
    · obtain ⟨i, running⟩ := not_forall.mp fin
      cases h : step (· + ·) g chunkSize s i with
      | none => exact absurd ((step_eq_none_iff _ _ _ s i).mp h) running
      | some s' =>
        obtain ⟨s'', path, done⟩ := ih _ (hr ▸ rank_lt positive h) s' rfl
        exact ⟨s'', .head ⟨i, h⟩ path, done⟩

end Termination

/-! ## The result -/

theorem sum_map_sum (f : Nat → Nat) (ls : Fin T → List Nat) :
    ((∑ i, (ls i : Multiset Nat)).map f).sum = ∑ i, ((ls i).map f).sum := by
  have hom := map_sum ((Multiset.sumAddMonoidHom).comp (Multiset.mapAddMonoidHom f))
    (fun i => (ls i : Multiset Nat)) Finset.univ
  simpa only [AddMonoidHom.comp_apply, Multiset.coe_mapAddMonoidHom, Multiset.coe_sumAddMonoidHom,
    Multiset.map_coe, Multiset.sum_coe] using hom

/-- Once every worker has returned, the enumerated nodes are `0..node_count`, each once, and
`total_triangles` holds the sum of their enumerations. -/
theorem Inv.finished {g : UndirectedCsrGraph} {chunkSize : Nat} {s : State T}
    (inv : Inv g chunkSize s) (fin : Finished s) (i₀ : Fin T) :
    ∑ i, ((s.workers i).nodes : Multiset Nat) = Multiset.range g.nodeCount ∧
      s.totalTriangles = ∑ u ∈ Finset.range g.nodeCount, nodeTriangles g u := by
  have past : min s.nextChunk g.nodeCount = g.nodeCount :=
    Nat.min_eq_right (inv.exited i₀ (.inr (fin i₀)))
  have nodes : ∑ i, ((s.workers i).nodes : Multiset Nat) = Multiset.range g.nodeCount := by
    rw [← past, ← inv.claimed]
    exact Finset.sum_congr rfl fun i _ => by simp [Worker.claimed, fin i]
  refine ⟨nodes, ?_⟩
  rw [inv.published, show ∑ u ∈ Finset.range g.nodeCount, nodeTriangles g u =
    ((Multiset.range g.nodeCount).map (nodeTriangles g)).sum from rfl, ← nodes, sum_map_sum]
  exact Finset.sum_congr rfl fun i _ => by
    simp only [Worker.published, fin i, if_true, (inv.workers i).counted]

/-- `global_triangle_count` on a deduplicated, loop-free, symmetric graph, for any positive
worker count and chunk size: no interleaving runs forever, a worker can move until it has
returned, every run can be completed, and once all have returned the claimed chunks `start..min(start + CHUNK_SIZE,
node_count)` together hold every node of `0..node_count` exactly once (so each node was
enumerated by exactly one worker) and `total_triangles` is the number of unordered
triangles. -/
theorem global_triangle_count_exact (g : UndirectedCsrGraph) (wf : g.WellFormed)
    (chunkSize T : Nat) (positive : 0 < chunkSize) (workers : 0 < T) :
    (∀ run : ℕ → State T, ¬ ∀ k, Step (· + ·) g chunkSize (run k) (run (k + 1))) ∧
    (∀ (s : State T) i, (s.workers i).phase ≠ .done →
      ∃ s', step (· + ·) g chunkSize s i = some s') ∧
    (∀ s : State T, ∃ s', Relation.ReflTransGen (Step (· + ·) g chunkSize) s s' ∧ Finished s') ∧
    (∀ s : State T, Reachable (· + ·) g chunkSize s → Finished s →
      (∀ i, ∀ c ∈ (s.workers i).chunks, c.2 = min (c.1 + chunkSize) g.nodeCount) ∧
      ∑ i, (((s.workers i).chunks.flatMap chunkNodes : List Nat) : Multiset Nat) =
        Multiset.range g.nodeCount ∧
      s.totalTriangles = (UndirectedCsrGraph.triangles g).card) := by
  refine ⟨no_infinite_run positive, fun s i running => ?_, completes positive,
    fun s reach fin => ?_⟩
  · cases h : step (· + ·) g chunkSize s i with
    | none => exact absurd ((step_eq_none_iff _ _ _ s i).mp h) running
    | some s' => exact ⟨s', rfl⟩
  · have inv := reach.inv
    obtain ⟨nodes, total⟩ := inv.finished fin ⟨0, workers⟩
    refine ⟨fun i c mem => (inv.workers i).shape c (List.mem_append_left _ mem), nodes, ?_⟩
    rw [total, sum_nodeTriangles wf]

def triangleGraph : UndirectedCsrGraph := ⟨3, fun u => [[1, 2], [0, 2], [0, 1]].getD u []⟩

theorem global_triangle_count_exact_on_triangle :
    triangleGraph.WellFormed ∧ ∀ s : State 2, Reachable (· + ·) triangleGraph CHUNK_SIZE s →
      Finished s → s.totalTriangles = 1 :=
  have wf : triangleGraph.WellFormed := ⟨⟨by decide, by decide, by decide⟩, by decide⟩
  ⟨wf, fun s reach fin => ((global_triangle_count_exact triangleGraph wf CHUNK_SIZE 2
    (by decide) (by decide)).2.2.2 s reach fin).2.2.trans (by decide)⟩

def soloRun (g : UndirectedCsrGraph) (k : Nat) : State 1 :=
  (fun s => (step (· + ·) g CHUNK_SIZE s 0).getD s)^[k] (init 1)

theorem sum_range_eq_sum_range' (f : Nat → Nat) (n : Nat) :
    ∑ u ∈ Finset.range n, f u = ((List.range' 0 n).map f).sum := by
  rw [Finset.sum_eq_multiset_sum, Finset.range_val, ← Multiset.coe_range, Multiset.map_coe,
    Multiset.sum_coe, List.range_eq_range']

/-- For every graph, whatever its slices hold, and every chunk size and worker count, every
interleaving of the workers that runs to the end leaves in `total_triangles` what one thread
running the same body over `for u in 0..node_count` counts: the chunked parallel dispatch
refines the sequential loop. -/
theorem parallel_count_eq_sequential (g : UndirectedCsrGraph) (chunkSize T : Nat)
    (workers : 0 < T) (s : State T) (reach : Reachable (· + ·) g chunkSize s)
    (fin : Finished s) : s.totalTriangles = chunkLoop g 0 g.nodeCount 0 := by
  rw [(reach.inv.finished fin ⟨0, workers⟩).2, chunkLoop_eq, chunkNodes, Nat.zero_add,
    Nat.sub_zero, sum_range_eq_sum_range']

theorem parallel_count_eq_sequential_solo :
    Reachable (· + ·) triangleGraph CHUNK_SIZE (soloRun triangleGraph 4) ∧
      Finished (soloRun triangleGraph 4) ∧
      (soloRun triangleGraph 4).totalTriangles = chunkLoop triangleGraph 0 3 0 :=
  have reach : Reachable (· + ·) triangleGraph CHUNK_SIZE (soloRun triangleGraph 4) :=
    reachable_of_run _ rfl 4 fun j lt => by interval_cases j <;> exact ⟨0, rfl⟩
  have fin : Finished (soloRun triangleGraph 4) := fun i => by rw [Fin.fin_one_eq_zero i]; rfl
  ⟨reach, fin, parallel_count_eq_sequential triangleGraph CHUNK_SIZE 1 (by decide) _ reach fin⟩

end GraphKernels.Dispatch
