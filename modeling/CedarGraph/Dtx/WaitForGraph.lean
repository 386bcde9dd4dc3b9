import CedarGraph.Lib.Buckets
import CedarGraph.Lib.CycleSearch
import CedarGraph.Lib.Runs

/-!
# The wait-for graph

The waits are kept under the waiter and under the holder. Expired waits are looked for one by
one, but taken away by pairs of transactions. The search for a cycle stops at the permitted
size.
-/

namespace CedarGraph

open List Runs Buckets CycleSearch

/-- The time of creation is a reading of the steady clock in nanoseconds. -/
structure WaitForEdge where
  waiter : UInt64
  holder : UInt64
  partition : UInt16
  createdAt : Int
  resourceId : String
  deriving DecidableEq, Repr

def WaitForEdge.isExpired (timeoutMs : UInt64) (now : Int) (edge : WaitForEdge) : Bool :=
  timeoutMs.toInt64.toInt < ((now - edge.createdAt).tdiv 1000000)

structure WaitForGraph where
  outgoingEdges : List (UInt64 × List WaitForEdge)
  incomingEdges : List (UInt64 × List WaitForEdge)
  nodes : List UInt64

structure DeadlockDetectionResult where
  hasDeadlock : Bool
  cycle : List UInt64
  victim : UInt64
  deriving DecidableEq, Repr

inductive GraphCall where
  | addEdge (edge : WaitForEdge)
  | removeEdge (waiter holder : UInt64)
  | removeTxn (txnId : UInt64)
  | cleanupExpiredEdges (timeoutMs : UInt64) (now : Int)

namespace WaitForGraph

variable (graph : WaitForGraph)

def empty : WaitForGraph :=
  ⟨[], [], []⟩

def addEdge (edge : WaitForEdge) : WaitForGraph :=
  ⟨push edge.waiter edge graph.outgoingEdges, push edge.holder edge graph.incomingEdges,
    (graph.nodes.insert edge.waiter).insert edge.holder⟩

def removeEdge (waiter holder : UInt64) : WaitForGraph :=
  { graph with
    outgoingEdges := removeIf waiter (fun edge => edge.holder = holder) graph.outgoingEdges
    incomingEdges := removeIf holder (fun edge => edge.waiter = waiter) graph.incomingEdges }

def removeTxn (txnId : UInt64) : WaitForGraph :=
  ⟨removeAll (fun edge => edge.holder = txnId) (eraseKey txnId graph.outgoingEdges),
    removeAll (fun edge => edge.waiter = txnId) (eraseKey txnId graph.incomingEdges),
    graph.nodes.erase txnId⟩

def cleanupExpiredEdges (timeoutMs : UInt64) (now : Int) : WaitForGraph × Nat :=
  let expired := (items graph.outgoingEdges).filter (·.isExpired timeoutMs now)
  (expired.foldl (fun graph edge => graph.removeEdge edge.waiter edge.holder) graph, expired.length)

def step : GraphCall → WaitForGraph
  | .addEdge edge => graph.addEdge edge
  | .removeEdge waiter holder => graph.removeEdge waiter holder
  | .removeTxn txnId => graph.removeTxn txnId
  | .cleanupExpiredEdges timeoutMs now => (graph.cleanupExpiredEdges timeoutMs now).1

def waitsFor (txnId : UInt64) : List UInt64 :=
  (find graph.outgoingEdges txnId).map (·.holder)

/-- The search takes no limit as 256. -/
def maxDepth (maxCycleSize : Nat) : Nat :=
  if maxCycleSize = 0 then 256 else maxCycleSize

def selectVictim : List UInt64 → UInt64
  | [] => 0
  | first :: rest => rest.foldl (fun victim txnId => if victim < txnId then txnId else victim) first

def report (res : Search UInt64 × Bool) : DeadlockDetectionResult :=
  if res.2 then ⟨true, res.1.cycle, selectVictim res.1.cycle⟩ else ⟨false, [], 0⟩

/-- The nodes are walked in the order in which the hash set holds them.  Between two searches
nothing is on the stack, so that only visited nodes are passed over. -/
def detectDeadlock (order : List UInt64) (maxCycleSize : Nat) : DeadlockDetectionResult :=
  report (searchNeighbors (findCycle graph.waitsFor (maxDepth maxCycleSize)) order .start)

def detectDeadlockForTxn (txnId : UInt64) (maxCycleSize : Nat) : DeadlockDetectionResult :=
  if txnId ∈ graph.nodes then
    report (findCycle graph.waitsFor (maxDepth maxCycleSize) txnId .start)
  else ⟨false, [], 0⟩

/-- The two indexes hold the same edges. -/
def Mirrored : Prop :=
  (items graph.outgoingEdges).Perm (items graph.incomingEdges)

/-- Each edge lies under its waiter and under its holder, and both are nodes. -/
structure Indexed (graph : WaitForGraph) : Prop where
  outgoing : Each (fun key edge => edge.waiter = key) graph.outgoingEdges
  incoming : Each (fun key edge => edge.holder = key) graph.incomingEdges
  nodes : Each (fun _ edge => edge.waiter ∈ graph.nodes ∧ edge.holder ∈ graph.nodes)
    graph.outgoingEdges
  mirrored : graph.Mirrored

variable {graph : WaitForGraph}

theorem Indexed.addEdge (indexed : graph.Indexed) (edge : WaitForEdge) :
    (graph.addEdge edge).Indexed := by
  refine ⟨indexed.outgoing.push rfl, indexed.incoming.push rfl, ?_, ?_⟩
  · refine Each.push ?_ (by simp [WaitForGraph.addEdge])
    intro bucket mem old inBucket
    have ends := indexed.nodes bucket mem old inBucket
    simp [WaitForGraph.addEdge, ends]
  · exact (items_push _ _ _).trans ((indexed.mirrored.cons edge).trans (items_push _ _ _).symm)

theorem items_removeEdge (indexed : graph.Indexed) (waiter holder : UInt64) :
    let kept := fun edge : WaitForEdge => !(decide (edge.waiter = waiter) &&
      decide (edge.holder = holder))
    items (graph.removeEdge waiter holder).outgoingEdges = (items graph.outgoingEdges).filter kept ∧
      items (graph.removeEdge waiter holder).incomingEdges =
        (items graph.incomingEdges).filter kept := by
  refine ⟨(sweeps_removeIf indexed.outgoing waiter _).items, ?_⟩
  refine (sweeps_removeIf indexed.incoming holder _).items.trans (filter_congr fun edge _ => ?_)
  rw [Bool.and_comm]

theorem Indexed.removeEdge (indexed : graph.Indexed) (waiter holder : UInt64) :
    (graph.removeEdge waiter holder).Indexed := by
  have outgoing := sweeps_removeIf indexed.outgoing waiter fun edge => edge.holder = holder
  have incoming := sweeps_removeIf indexed.incoming holder fun edge => edge.waiter = waiter
  obtain ⟨out, into⟩ := items_removeEdge indexed waiter holder
  refine ⟨outgoing.each indexed.outgoing, incoming.each indexed.incoming,
    outgoing.each indexed.nodes, ?_⟩
  rw [Mirrored, out, into]
  exact indexed.mirrored.filter _

theorem Indexed.removeTxn (indexed : graph.Indexed) (txnId : UInt64) :
    (graph.removeTxn txnId).Indexed := by
  have outgoing := sweeps_eraseKey indexed.outgoing txnId
  have incoming := sweeps_eraseKey indexed.incoming txnId
  have others := sweeps_removeAll (fun edge : WaitForEdge => decide (edge.holder = txnId))
    (eraseKey txnId graph.outgoingEdges)
  have waiters := sweeps_removeAll (fun edge : WaitForEdge => decide (edge.waiter = txnId))
    (eraseKey txnId graph.incomingEdges)
  refine ⟨others.each (outgoing.each indexed.outgoing),
    waiters.each (incoming.each indexed.incoming), ?_, ?_⟩
  · have ends : Each (fun _ edge => (edge.waiter ∈ graph.nodes ∧ edge.holder ∈ graph.nodes) ∧
        edge.waiter ≠ txnId) (eraseKey txnId graph.outgoingEdges) := by
      intro bucket mem edge inBucket
      refine ⟨outgoing.each indexed.nodes bucket mem edge inBucket, ?_⟩
      grind [eraseKey, indexed.outgoing, Each]
    intro bucket mem edge inBucket
    have kept := others.each ends bucket mem edge inBucket
    have notHolder : edge.holder ≠ txnId := by
      grind [WaitForGraph.removeTxn, Buckets.removeAll]
    exact ⟨(mem_erase_of_ne kept.2).mpr kept.1.1, (mem_erase_of_ne notHolder).mpr kept.1.2⟩
  · have sameOut : items (graph.removeTxn txnId).outgoingEdges =
        (items graph.outgoingEdges).filter fun edge =>
          decide (edge.waiter ≠ txnId) && decide (edge.holder ≠ txnId) := by
      refine others.items.trans ?_
      rw [eraseKey, outgoing.items, filter_filter]
      exact filter_congr fun edge _ => by simp [Bool.and_comm]
    have sameIn : items (graph.removeTxn txnId).incomingEdges =
        (items graph.incomingEdges).filter fun edge =>
          decide (edge.waiter ≠ txnId) && decide (edge.holder ≠ txnId) := by
      refine waiters.items.trans ?_
      rw [eraseKey, incoming.items, filter_filter]
      exact filter_congr fun edge _ => by simp
    rw [Mirrored, sameOut, sameIn]
    exact indexed.mirrored.filter _

theorem Indexed.foldl_removeEdge (indexed : graph.Indexed) (removed : List WaitForEdge) :
    let after := removed.foldl (fun graph edge => graph.removeEdge edge.waiter edge.holder) graph
    after.Indexed ∧ items after.outgoingEdges = (items graph.outgoingEdges).filter fun edge =>
      decide (∀ other ∈ removed, ¬ (edge.waiter = other.waiter ∧ edge.holder = other.holder)) := by
  induction removed generalizing graph with
  | nil => exact ⟨indexed, by simp⟩
  | cons edge rest ih =>
    obtain ⟨later, outgoing⟩ := ih (indexed.removeEdge edge.waiter edge.holder)
    refine ⟨later, outgoing.trans ?_⟩
    rw [(items_removeEdge indexed edge.waiter edge.holder).1, filter_filter]
    exact filter_congr fun other _ => by simp [Bool.and_comm]

theorem indexed_step (graph : WaitForGraph) (call : GraphCall) (indexed : graph.Indexed) :
    (graph.step call).Indexed := by
  cases call with
  | addEdge edge => exact indexed.addEdge edge
  | removeEdge waiter holder => exact indexed.removeEdge waiter holder
  | removeTxn txnId => exact indexed.removeTxn txnId
  | cleanupExpiredEdges timeoutMs now => exact (indexed.foldl_removeEdge _).1

theorem indexed_run (calls : List GraphCall) : Throughout step Indexed empty calls :=
  throughout_of_preserved (fun graph call _ indexed => indexed_step graph call indexed)
    ⟨nofun, nofun, nofun, .nil⟩

theorem indexed_built (calls : List GraphCall) : (run step empty calls).Indexed := by
  simpa using (indexed_run calls).take calls.length

/-- Exactly the expired edges go, and their number is returned. -/
def ExpiresExactly (graph : WaitForGraph) (timeoutMs : UInt64) (now : Int) : Prop :=
  let (after, removed) := graph.cleanupExpiredEdges timeoutMs now
  (items after.outgoingEdges).Perm
      ((items graph.outgoingEdges).filter fun edge => !edge.isExpired timeoutMs now) ∧
    removed = ((items graph.outgoingEdges).filter (·.isExpired timeoutMs now)).length

/-- The indexes agree after every operation.  A clean-up takes exactly the expired edges if
every edge between the two transactions of an expired one is expired. -/
theorem expiresExactly_iff (calls : List GraphCall) (timeoutMs : UInt64) (now : Int) :
    Throughout step Mirrored empty calls ∧
      ((run step empty calls).ExpiresExactly timeoutMs now ↔
        ∀ edge ∈ items (run step empty calls).outgoingEdges,
          ∀ other ∈ items (run step empty calls).outgoingEdges,
            edge.waiter = other.waiter ∧ edge.holder = other.holder →
              other.isExpired timeoutMs now → edge.isExpired timeoutMs now) := by
  refine ⟨(indexed_run calls).imp fun _ indexed => indexed.mirrored, ?_⟩
  have indexed := indexed_built calls
  generalize run step empty calls = graph at indexed ⊢
  have outgoing :=
    (indexed.foldl_removeEdge ((items graph.outgoingEdges).filter (·.isExpired timeoutMs now))).2
  simp only [ExpiresExactly, cleanupExpiredEdges, and_true]
  rw [outgoing]
  constructor
  · intro exactly edge mem other inGraph same expired
    by_contra fresh
    have kept := (exactly.mem_iff (a := edge)).mpr (by simp [mem, fresh])
    simp only [mem_filter, decide_eq_true_eq] at kept
    exact kept.2 other ⟨inGraph, expired⟩ same
  · intro together
    refine .of_eq (filter_congr fun edge mem => ?_)
    have own := together edge mem
    grind

theorem cleanup_takes_fresh_edge :
    ¬ (run step empty [.addEdge ⟨1, 2, 0, 0, "a"⟩, .addEdge ⟨1, 2, 0, 60000000000, "b"⟩]
      ).ExpiresExactly 30000 60000000000 := by
  unfold ExpiresExactly
  decide +kernel

theorem isLargest_selectVictim {cycle : List UInt64} (nonempty : cycle ≠ []) :
    selectVictim cycle ∈ cycle ∧ ∀ txnId ∈ cycle, txnId ≤ selectVictim cycle := by
  cases cycle with
  | nil => exact absurd rfl nonempty
  | cons first rest =>
    rw [selectVictim]
    induction rest generalizing first with
    | nil => simp
    | cons second others ih =>
      obtain ⟨mem, largest⟩ := ih (if first < second then second else first) (by simp)
      rw [foldl_cons]
      refine ⟨by grind, fun txnId inCycle => ?_⟩
      have above := largest _ mem_cons_self
      have later := largest txnId
      split at above <;> grind

/-- A reported cycle is one: each of its transactions waits for the next and the last for the
first.  It is no longer than the search goes deep. -/
theorem reported_deadlock_isCycle (calls : List GraphCall) (order : List UInt64) (txnId : UInt64)
    (maxCycleSize : Nat) (res : DeadlockDetectionResult)
    (returned : res ∈ [(run step empty calls).detectDeadlock order maxCycleSize,
      (run step empty calls).detectDeadlockForTxn txnId maxCycleSize])
    (reported : res.hasDeadlock) :
    IsCycle (run step empty calls).waitsFor res.cycle ∧ res.cycle.length ≤ maxDepth maxCycleSize ∧
      res.victim ∈ res.cycle ∧ ∀ txnId ∈ res.cycle, txnId ≤ res.victim := by
  generalize run step empty calls = graph at returned ⊢
  obtain ⟨nodes, search, outcome, rfl⟩ : ∃ nodes search, Outcome graph.waitsFor
      (maxDepth maxCycleSize) nodes .start search ∧ res = report search := by
    rcases mem_pair.mp returned with rfl | rfl
    · exact ⟨order, _, outcome_start _ _ _, rfl⟩
    · rw [detectDeadlockForTxn] at reported ⊢
      split at reported
      · rw [if_pos ‹_›]
        exact ⟨[txnId], _, specified_findCycle _ _ _ _ _ (stacked_start _ _) not_mem_nil
          (isChain_singleton txnId), rfl⟩
      · cases reported
  rw [report] at reported ⊢
  split at reported
  · rw [if_pos ‹_›]
    obtain ⟨isCycle, bounded⟩ := outcome.reports ‹_›
    exact ⟨isCycle, bounded, isLargest_selectVictim isCycle.nonempty⟩
  · cases reported

theorem reported_deadlock_isCycle_pair :
    IsCycle (run step empty [.addEdge ⟨1, 2, 0, 0, ""⟩, .addEdge ⟨2, 1, 0, 0, ""⟩]).waitsFor
      [1, 2] :=
  (reported_deadlock_isCycle [.addEdge ⟨1, 2, 0, 0, ""⟩, .addEdge ⟨2, 1, 0, 0, ""⟩] [1, 2] 1 2
    ⟨true, [1, 2], 2⟩ (by decide) rfl).1

theorem reported_deadlock_beyond_zero :
    ((run step empty [.addEdge ⟨1, 2, 0, 0, ""⟩, .addEdge ⟨2, 1, 0, 0, ""⟩]).detectDeadlock [1, 2] 0
      ).cycle.length = 2 := by
  decide

theorem Indexed.mem_nodes (indexed : graph.Indexed) {waiter holder : UInt64}
    (waits : Leads graph.waitsFor waiter holder) :
    waiter ∈ graph.nodes ∧ holder ∈ graph.nodes := by
  obtain ⟨edge, found, rfl⟩ := mem_map.mp waits
  have ends := indexed.nodes.find found
  rwa [indexed.outgoing.find found] at ends

theorem Indexed.short (indexed : graph.Indexed) {txnId : UInt64} (isNode : txnId ∈ graph.nodes) :
    Short graph.waitsFor graph.nodes.length := by
  intro path chain nodup
  have inside : ∀ first second rest, path = first :: second :: rest → path ⊆ graph.nodes := by
    intro first second rest same
    subst same
    have later : ∀ nodes node, List.IsChain (Leads graph.waitsFor) (node :: nodes) →
        nodes ⊆ graph.nodes := by
      intro nodes
      induction nodes with
      | nil => exact fun _ _ => nil_subset _
      | cons next others ih =>
        intro node chain
        have edge := isChain_cons_cons.mp chain
        exact cons_subset.mpr ⟨(indexed.mem_nodes edge.1).2, ih next edge.2⟩
    exact cons_subset.mpr ⟨(indexed.mem_nodes (isChain_cons_cons.mp chain).1).1, later _ _ chain⟩
  match path, inside with
  | [], _ => exact Nat.zero_le _
  | [_], _ => exact length_pos_of_mem isNode
  | first :: second :: rest, inside =>
    exact (nodup.subperm (inside first second rest rfl)).length_le

end WaitForGraph

end CedarGraph
